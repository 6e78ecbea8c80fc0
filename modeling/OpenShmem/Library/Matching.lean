import Mathlib.Algebra.Order.Group.Multiset

-- Matchings of what was asked for with what was made, whatever the order.
namespace Matching
variable {α β : Type} {r : α → β → Prop} {s : Multiset α} {first second : Multiset β}

theorem single (related : r a b) : Multiset.Rel r ([a] : Multiset α) ([b] : Multiset β) :=
  Multiset.Rel.cons related Multiset.Rel.zero

theorem snoc (rest : Multiset.Rel r s first) (related : r a b) :
    Multiset.Rel r (s + ([a] : Multiset α)) (first + ([b] : Multiset β)) :=
  Multiset.Rel.add rest (single related)

theorem insert (rest : Multiset.Rel r s (first + second)) (related : r a b) :
    Multiset.Rel r (s + ([a] : Multiset α)) (first + ([b] : Multiset β) + second) := by
  rw [add_right_comm]
  exact snoc rest related

-- One thing that was made gives way to another that serves as well.
theorem replace (implies : ∀ a, r a b → r a c) (rest : Multiset.Rel r s (first + (([b] : Multiset β) + second))) :
    Multiset.Rel r s (first + ([c] : Multiset β) + second) := by
  have moved : first + (([b] : Multiset β) + second) = b ::ₘ (first + second) := by
    rw [add_left_comm]
    exact Multiset.singleton_add b _
  have target : first + ([c] : Multiset β) + second = c ::ₘ (first + second) := by
    rw [add_right_comm,add_comm]
    exact Multiset.singleton_add c _
  rw [moved] at rest
  obtain ⟨a,remaining,related,others,same⟩ := Multiset.rel_cons_right.mp rest
  rw [same,target]
  exact Multiset.Rel.cons (implies a related) others

end Matching
