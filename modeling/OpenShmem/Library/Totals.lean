import Mathlib.Algebra.BigOperators.Group.Finset.Basic

namespace Totals
variable {n i j : Nat} {f g : Nat → Nat} {p q : Nat → Nat → Nat}

-- A quantity summed over the parties 0..n-1, or over the ordered pairs of them.
def total (n : Nat) (f : Nat → Nat) : Nat := ∑ i ∈ Finset.range n, f i
def grid (n : Nat) (p : Nat → Nat → Nat) : Nat := total n fun i => total n (p i)

-- A quantity summed over the items of a list.
def along {α : Type} (f : α → Nat) : List α → Nat
  | [] => 0
  | item :: rest => f item + along f rest

@[simp] theorem along_nil {α : Type} (f : α → Nat) : along f [] = 0 := rfl
@[simp] theorem along_cons {α : Type} (f : α → Nat) (item : α) (rest : List α) : along f (item :: rest) = f item + along f rest := rfl

@[simp] theorem along_append {α : Type} (f : α → Nat) (first second : List α) :
    along f (first ++ second) = along f first + along f second := by
  induction first with
  | nil => exact (Nat.zero_add _).symm
  | cons item rest ih => rw [List.cons_append,along_cons,along_cons,ih,Nat.add_assoc]

-- When every item stays under the bound, each leaves at least one unit of it unused.
theorem along_below {α : Type} {f : α → Nat} {bound : Nat} {items : List α} (below : ∀ item ∈ items, f item < bound) :
    along f items + items.length ≤ items.length * bound := by
  induction items with
  | nil => exact Nat.zero_le _
  | cons item rest ih =>
    obtain ⟨here,later⟩ := List.forall_mem_cons.mp below
    have behind := ih later
    rw [along_cons,List.length_cons,Nat.succ_mul]
    omega

theorem total_congr (same : ∀ i < n, g i = f i) : total n g = total n f :=
  Finset.sum_congr rfl fun i member => same i (Finset.mem_range.mp member)

-- One party's share changes.
theorem total_update (inside : i < n) (same : ∀ k, k ≠ i → g k = f k) : total n g + f i = total n f + g i := by
  have member := Finset.mem_range.mpr inside
  have others : ∑ k ∈ (Finset.range n).erase i, g k = ∑ k ∈ (Finset.range n).erase i, f k :=
    Finset.sum_congr rfl fun k away => same k (Finset.ne_of_mem_erase away)
  unfold total
  rw [← Finset.add_sum_erase _ f member,← Finset.add_sum_erase _ g member,others]
  omega

theorem grid_update (first : i < n) (second : j < n) (rows : ∀ k, k ≠ i → q k = p k) (same : ∀ k, k ≠ j → q i k = p i k) :
    grid n q + p i j = grid n p + q i j := by
  have row := total_update (f := p i) (g := q i) second same
  have table := total_update (f := fun k => total n (p k)) (g := fun k => total n (q k)) first fun k away => by rw [rows k away]
  unfold grid
  omega

end Totals
