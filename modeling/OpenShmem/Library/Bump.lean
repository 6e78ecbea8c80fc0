import Mathlib.Data.List.ReduceOption

namespace Bump
variable {next room size p : Nat} {sizes : List Nat}

-- Requests served one after another from the space [next,next+room): an address for each
-- one that fits into what is left, and nothing for the others.
def answers (next room : Nat) : List Nat → List (Option Nat)
  | [] => []
  | size :: rest =>
    if size ≤ room then some next :: answers (next + size) (room - size) rest
    else none :: answers next room rest

-- The sizes of the requests that fit.
def served (room : Nat) : List Nat → List Nat
  | [] => []
  | size :: rest => if size ≤ room then size :: served (room - size) rest else served room rest

-- Where ranges of these sizes start when they are packed from `next` on.
def starts (next : Nat) : List Nat → List Nat
  | [] => []
  | size :: rest => next :: starts (next + size) rest

theorem answers_served : (answers next room sizes).reduceOption = starts next (served room sizes) := by
  induction sizes generalizing next room with
  | nil => rfl
  | cons size rest ih =>
    by_cases fits : size ≤ room
    · simp [answers,served,starts,fits,ih]
    · simp [answers,served,fits,ih]

theorem starts_above (member : p ∈ starts next sizes) : next ≤ p := by
  induction sizes generalizing next with
  | nil => cases member
  | cons size rest ih =>
    rcases List.mem_cons.mp member with rfl | later
    · exact Nat.le_refl _
    · exact Nat.le_trans (Nat.le_add_right _ _) (ih later)

-- Two packed ranges start at one address only if an empty one lies between.
theorem starts_nodup : (starts next sizes).Nodup ↔ ∀ size ∈ sizes.dropLast, 0 < size := by
  induction sizes generalizing next with
  | nil => simp [starts]
  | cons size rest ih =>
    cases rest with
    | nil => simp [starts]
    | cons second rest =>
      have here : next ∉ starts (next + size) (second :: rest) ↔ 0 < size := by
        constructor
        · intro absent
          rcases Nat.eq_zero_or_pos size with rfl | positive
          · exact absurd List.mem_cons_self absent
          · exact positive
        · intro positive member
          have above := starts_above member
          omega
      rw [starts,List.nodup_cons,here,ih]
      simp

-- The addresses given out differ just when nothing is given out behind an empty range.
theorem answers_nodup : (answers next room sizes).reduceOption.Nodup ↔ ∀ size ∈ (served room sizes).dropLast, 0 < size := by
  rw [answers_served,starts_nodup]

end Bump
