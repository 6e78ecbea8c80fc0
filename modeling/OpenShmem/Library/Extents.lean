import Mathlib.Data.List.Pairwise
import Mathlib.Order.Basic

namespace Extents
variable {α β : Type} [Preorder β] {start stop : α → β} {low high : β}
  {before after items : List α} {x y z : α}

-- Ranges [start,stop) that lie inside [low,high), in order and without overlap.
structure Laid (start stop : α → β) (low high : β) (items : List α) : Prop where
  ordered : items.Pairwise fun x y => stop x ≤ start y
  inside : ∀ x ∈ items, low ≤ start x ∧ start x ≤ stop x ∧ stop x ≤ high

def Disjoint (start stop : α → β) (x y : α) : Prop := stop x ≤ start y ∨ stop y ≤ start x

instance : Std.Symm (Disjoint start stop) := ⟨fun _ _ apart => apart.symm⟩

theorem Laid.sublist (laid : Laid start stop low high items) (sub : before.Sublist items) :
    Laid start stop low high before :=
  ⟨laid.ordered.sublist sub,fun x member => laid.inside x (sub.subset member)⟩

theorem Laid.singleton (above : low ≤ start x) (proper : start x ≤ stop x) (below : stop x ≤ high) :
    Laid start stop low high [x] :=
  ⟨List.pairwise_singleton _ _,by simpa using ⟨above,proper,below⟩⟩

theorem Laid.disjoint (laid : Laid start stop low high items) (one : x ∈ items) (two : y ∈ items)
    (different : x ≠ y) : Disjoint start stop x y := by
  have either : items.Pairwise (Disjoint start stop) := laid.ordered.imp Or.inl
  exact either.forall one two different

-- A new item in the gap behind `x`: the gap ends where the next item starts, or at `high`.
theorem Laid.insert (laid : Laid start stop low high (before ++ x :: after))
    (behind : stop x ≤ start y) (proper : start y ≤ stop y) (below : stop y ≤ high)
    (fits : ∀ z rest, after = z :: rest → stop y ≤ start z) :
    Laid start stop low high (before ++ x :: y :: after) := by
  obtain ⟨ordered,inside⟩ := laid
  have atX := inside x (by simp)
  obtain ⟨pre,rest,cross⟩ := List.pairwise_append.mp ordered
  obtain ⟨xRest,post⟩ := List.pairwise_cons.mp rest
  have ahead : ∀ z ∈ after, stop y ≤ start z := by
    intro z member
    cases after with
    | nil => cases member
    | cons next tail =>
      have reach := fits next tail rfl
      rcases List.mem_cons.mp member with rfl | later
      · exact reach
      · have nextProper := (inside next (by simp)).2.1
        exact le_trans reach (le_trans nextProper ((List.pairwise_cons.mp post).1 z later))
  refine ⟨List.pairwise_append.mpr ⟨pre,?_,?_⟩,?_⟩
  · refine List.pairwise_cons.mpr ⟨?_,List.pairwise_cons.mpr ⟨ahead,post⟩⟩
    intro z member
    rcases List.mem_cons.mp member with rfl | later
    · exact behind
    · exact xRest z later
  · intro w first z second
    have upToX := cross w first x (by simp)
    rcases List.mem_cons.mp second with rfl | second
    · exact upToX
    · rcases List.mem_cons.mp second with rfl | later
      · exact le_trans upToX (le_trans atX.2.1 behind)
      · exact cross w first z (by simp [later])
  · intro z member
    by_cases new : z = y
    · subst z
      exact ⟨le_trans atX.1 (le_trans atX.2.1 behind),proper,below⟩
    · refine inside z ?_
      simp only [List.mem_append,List.mem_cons] at member ⊢
      rcases member with first | rfl | equal | later
      · exact Or.inl first
      · exact Or.inr (Or.inl rfl)
      · exact False.elim (new equal)
      · exact Or.inr (Or.inr later)

theorem Laid.remove (laid : Laid start stop low high (before ++ x :: y :: after)) :
    Laid start stop low high (before ++ x :: after) :=
  laid.sublist (List.Sublist.append_left (List.Sublist.cons_cons _ (List.sublist_cons_self _ _)) _)

end Extents
