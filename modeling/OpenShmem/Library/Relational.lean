import OpenShmem.Library.Machine
import Mathlib.Data.List.Forall2

namespace Relational
variable {α β γ δ σ τ ε ζ : Type} {r : α → β → Prop} {q : γ → δ → Prop}

-- Two partial computations related: both have no value, or both have related values.
theorem rel_bind {o : Option α} {p : Option β} {f : α → Option γ} {g : β → Option δ} (first : Option.Rel r o p)
    (rest : ∀ a b, o = some a → p = some b → r a b → Option.Rel q (f a) (g b)) :
    Option.Rel q (o.bind f) (p.bind g) := by
  cases first with
  | none => exact .none
  | some related => exact rest _ _ rfl rfl related

theorem rel_map {o : Option α} {p : Option β} {f : α → γ} {g : β → δ} (first : Option.Rel r o p)
    (rest : ∀ a b, r a b → q (f a) (g b)) : Option.Rel q (o.map f) (p.map g) := by
  cases first with
  | none => exact .none
  | some related => exact .some (rest _ _ related)

theorem rel_some {p : Option β} (related : Option.Rel r (some a) p) : ∃ b, p = some b ∧ r a b := by
  cases related with
  | some holds => exact ⟨_,rfl,holds⟩

theorem rel_ite {c d : Prop} [Decidable c] [Decidable d] {o o' : Option α} {p p' : Option β} (same : c ↔ d)
    (yes : Option.Rel r o p) (no : Option.Rel r o' p') :
    Option.Rel r (if c then o else o') (if d then p else p') := by
  by_cases holds : c
  · rw [if_pos holds,if_pos (same.mp holds)]; exact yes
  · rw [if_neg holds,if_neg (fun other => holds (same.mpr other))]; exact no

theorem rel_imp {s : α → β → Prop} {o : Option α} {p : Option β} (related : Option.Rel r o p)
    (rest : ∀ a b, o = some a → p = some b → r a b → s a b) : Option.Rel s o p := by
  cases related with
  | none => exact .none
  | some holds => exact .some (rest _ _ rfl rfl holds)

-- Two machines in lockstep: paired guarded steps keep the relation, or are both undefined.
theorem run_lockstep {m : Guarded.Machine σ ε} {n : Guarded.Machine τ ζ} {relates : σ → τ → Prop}
    {here : σ → ε → Prop} {there : τ → ζ → Prop} {paired : ε → ζ → Prop}
    (steps : ∀ s t e f, relates s t → paired e f → here s e → there t f →
      Option.Rel relates (m.step s e) (n.step t f))
    (pairs : List.Forall₂ paired left right) (start : relates s t)
    (one : m.Meets here s left) (two : n.Meets there t right) :
    Option.Rel relates (m.run s left) (n.run t right) := by
  induction pairs generalizing s t with
  | nil => exact .some start
  | cons pair _ ih =>
    refine rel_bind (steps _ _ _ _ start pair one.1 two.1) ?_
    intro u v moved also related
    exact ih related (one.2 u moved) (two.2 v also)

end Relational
