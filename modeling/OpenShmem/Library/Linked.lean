import Mathlib.Data.List.Chain
import Mathlib.Data.List.Nodup

namespace Linked
variable {α β : Type}

-- The cells met by following `next` from `first` up to the missing successor. The
-- store is a partial function: a cell that was never made or was released has no value.
inductive Chain (look : α → Option (β × Option α)) : Option α → List (α × β) → Prop where
  | nil : Chain look none []
  | cons : look a = some (x,next) → Chain look next rest → Chain look (some a) ((a,x) :: rest)

variable {look changed : α → Option (β × Option α)} {first next : Option α}
  {a b : α} {x y : β} {before after cells : List (α × β)}

def addresses (cells : List (α × β)) : List α := cells.map Prod.fst

@[simp] theorem addresses_nil : addresses ([] : List (α × β)) = [] := rfl
@[simp] theorem addresses_cons : addresses ((a,x) :: cells) = a :: addresses cells := rfl
@[simp] theorem addresses_append : addresses (before ++ after) = addresses before ++ addresses after := by
  simp [addresses]

theorem mem_addresses : a ∈ addresses cells ↔ ∃ x, (a,x) ∈ cells := by
  simp [addresses]

theorem mem_behind {γ : Type} {c d e : γ} {front back : List γ} :
    c ∈ front ++ d :: e :: back ↔ c = e ∨ c ∈ front ++ d :: back := by
  simp only [List.mem_append,List.mem_cons]
  constructor
  · rintro (first | here | there | later)
    · exact Or.inr (Or.inl first)
    · exact Or.inr (Or.inr (Or.inl here))
    · exact Or.inl there
    · exact Or.inr (Or.inr (Or.inr later))
  · rintro (there | first | here | later)
    · exact Or.inr (Or.inr (Or.inl there))
    · exact Or.inl first
    · exact Or.inr (Or.inl here)
    · exact Or.inr (Or.inr (Or.inr later))

theorem sublist_behind {γ : Type} {d e : γ} {front back : List γ} : (front ++ d :: back).Sublist (front ++ d :: e :: back) :=
  List.Sublist.append_left (List.Sublist.cons_cons _ (List.sublist_cons_self _ _)) _

theorem mem_addresses_behind {c : α} : c ∈ addresses (before ++ (a,x) :: (b,y) :: after) ↔
    c = b ∨ c ∈ addresses (before ++ (a,x) :: after) := by
  simp only [addresses_append,addresses_cons]
  exact mem_behind

theorem mem_split (member : a ∈ addresses cells) : ∃ before x after, cells = before ++ (a,x) :: after := by
  obtain ⟨x,found⟩ := mem_addresses.mp member
  obtain ⟨before,after,split⟩ := List.append_of_mem found
  exact ⟨before,x,after,split⟩

theorem Chain.head (chain : Chain look first ((a,x) :: after)) :
    first = some a ∧ ∃ next, look a = some (x,next) ∧ Chain look next after := by
  cases chain with
  | cons found rest => exact ⟨rfl,_,found,rest⟩

theorem Chain.unique (one : Chain look first before) (two : Chain look first after) : before = after := by
  induction one generalizing after with
  | nil => cases two; rfl
  | cons found rest ih =>
    cases two with
    | cons again others =>
      rw [found] at again
      cases again
      rw [ih others]

-- A chain may be entered at any of its cells.
theorem Chain.enter (chain : Chain look first (before ++ (a,x) :: after)) :
    Chain look (some a) ((a,x) :: after) := by
  induction before generalizing first with
  | nil =>
    obtain ⟨rfl,_⟩ := chain.head
    exact chain
  | cons cell before ih =>
    obtain ⟨_,_,_,rest⟩ := chain.head
    exact ih rest

theorem Chain.at (chain : Chain look first (before ++ (a,x) :: after)) :
    ∃ next, look a = some (x,next) ∧ Chain look next after :=
  chain.enter.head.2

theorem Chain.look_eq (chain : Chain look first cells) (member : (a,x) ∈ cells) :
    ∃ next, look a = some (x,next) := by
  obtain ⟨before,after,rfl⟩ := List.append_of_mem member
  obtain ⟨next,found,_⟩ := chain.at
  exact ⟨next,found⟩

-- Following next is deterministic, so a cell that came twice would come for ever.
theorem Chain.nodup (chain : Chain look first cells) : (addresses cells).Nodup := by
  induction chain with
  | nil => exact List.nodup_nil
  | @cons a x next rest found tail ih =>
    refine List.nodup_cons.mpr ⟨?_,ih⟩
    intro again
    obtain ⟨y,member⟩ := mem_addresses.mp again
    obtain ⟨before,after,split⟩ := List.append_of_mem member
    have inner : Chain look (some a) ((a,y) :: after) := (split ▸ tail).enter
    have outer : Chain look (some a) ((a,x) :: rest) := .cons found tail
    have same := congrArg List.length (outer.unique inner)
    rw [split] at same
    simp only [List.length_cons,List.length_append] at same
    omega

theorem Chain.frame (chain : Chain look first cells)
    (same : ∀ a ∈ addresses cells, changed a = look a) : Chain changed first cells := by
  induction chain with
  | nil => exact .nil
  | cons found rest ih =>
    simp only [addresses_cons,List.mem_cons,forall_eq_or_imp] at same
    exact .cons (same.1.trans found) (ih same.2)

theorem not_mem_halves (nodup : (addresses (before ++ (a,x) :: after)).Nodup) :
    a ∉ addresses before ∧ a ∉ addresses after := by
  simp only [addresses_append,addresses_cons,List.nodup_append,List.nodup_cons] at nodup
  refine ⟨fun member => ?_,nodup.2.1.1⟩
  exact nodup.2.2 a member a List.mem_cons_self rfl

-- Replaces everything behind one cell, provided that the cells before it keep their values.
theorem Chain.splice (chain : Chain look first (before ++ (a,x) :: after))
    (same : ∀ c ∈ addresses before, changed c = look c)
    (tail : Chain changed (some a) ((a,x) :: cells)) :
    Chain changed first (before ++ (a,x) :: cells) := by
  induction before generalizing first with
  | nil =>
    obtain ⟨rfl,_⟩ := chain.head
    exact tail
  | cons cell before ih =>
    obtain ⟨c,z⟩ := cell
    obtain ⟨rfl,next,found,rest⟩ := chain.head
    simp only [addresses_cons,List.mem_cons,forall_eq_or_imp] at same
    exact .cons (same.1.trans found) (ih rest same.2)

theorem Chain.insert (chain : Chain look first (before ++ (a,x) :: after))
    (fresh : b ∉ addresses (before ++ (a,x) :: after)) (found : look a = some (x,next))
    (here : changed a = some (x,some b)) (new : changed b = some (y,next))
    (same : ∀ c, c ≠ a → c ≠ b → changed c = look c) :
    Chain changed first (before ++ (a,x) :: (b,y) :: after) := by
  obtain ⟨notBefore,notAfter⟩ := not_mem_halves chain.nodup
  simp only [addresses_append,addresses_cons,List.mem_append,List.mem_cons,not_or] at fresh
  obtain ⟨freshBefore,_,freshAfter⟩ := fresh
  refine chain.splice (fun c member => same c ?_ ?_) (.cons here (.cons new ?_))
  · rintro rfl; exact notBefore member
  · rintro rfl; exact freshBefore member
  · obtain ⟨_,again,tail⟩ := chain.at
    rw [found] at again
    cases again
    refine tail.frame fun c member => same c ?_ ?_
    · rintro rfl; exact notAfter member
    · rintro rfl; exact freshAfter member

theorem Chain.remove (chain : Chain look first (before ++ (a,x) :: (b,y) :: after))
    (found : look b = some (y,next)) (here : changed a = some (x,next))
    (same : ∀ c, c ≠ a → c ≠ b → changed c = look c) :
    Chain changed first (before ++ (a,x) :: after) := by
  have nodup := chain.nodup
  obtain ⟨notBefore,notAfter⟩ := not_mem_halves nodup
  have behind : before ++ (a,x) :: (b,y) :: after = (before ++ [(a,x)]) ++ (b,y) :: after := by simp
  rw [behind] at nodup
  obtain ⟨otherBefore,otherAfter⟩ := not_mem_halves nodup
  simp only [addresses_append,addresses_cons,addresses_nil,List.mem_append,List.mem_cons,
    List.not_mem_nil,or_false,not_or] at otherBefore notAfter
  refine chain.splice (fun c member => same c ?_ ?_) (.cons here ?_)
  · rintro rfl; exact notBefore member
  · rintro rfl; exact otherBefore.1 member
  · obtain ⟨_,_,rest⟩ := chain.at
    obtain ⟨rfl,_,again,tail⟩ := rest.head
    rw [found] at again
    cases again
    refine tail.frame fun c member => same c ?_ ?_
    · rintro rfl; exact notAfter.2 member
    · rintro rfl; exact otherAfter member

-- The successor of a cell on the chain is on the chain, right behind it.
theorem Chain.successor (chain : Chain look first (before ++ (a,x) :: after))
    (found : look a = some (x,some b)) : ∃ y rest, after = (b,y) :: rest := by
  obtain ⟨_,again,tail⟩ := chain.at
  rw [found] at again
  cases again
  cases tail with
  | cons _ _ => exact ⟨_,_,rfl⟩

theorem Chain.last (chain : Chain look first (before ++ (a,x) :: after))
    (found : look a = some (x,none)) : after = [] := by
  obtain ⟨_,again,tail⟩ := chain.at
  rw [found] at again
  cases again
  cases tail
  rfl

theorem Chain.first_mem (chain : Chain look (some a) cells) : a ∈ addresses cells := by
  cases chain with
  | cons found rest => exact List.mem_cons_self

-- The successor of a cell, or the first cell behind the last one, is on the chain.
theorem Chain.next_mem (chain : Chain look (some b) (before ++ (a,x) :: after)) :
    (after.head?.map Prod.fst).getD b ∈ addresses (before ++ (a,x) :: after) := by
  cases after with
  | nil => exact chain.first_mem
  | cons cell rest => simp [addresses]

theorem Chain.linked (chain : Chain look first cells) :
    (addresses cells).IsChain fun a b => ∃ x y next, look a = some (x,some b) ∧ look b = some (y,next) := by
  induction chain with
  | nil => exact List.IsChain.nil
  | @cons a x next rest found tail ih =>
    cases tail with
    | nil => exact List.isChain_singleton _
    | cons behind _ => exact List.isChain_cons_cons.mpr ⟨⟨x,_,_,found,behind⟩,ih⟩

theorem Chain.last_none (chain : Chain look first cells) (last : a ∈ (addresses cells).getLast?) :
    ∃ x, look a = some (x,none) := by
  induction chain with
  | nil => cases last
  | @cons c x next rest found tail ih =>
    cases tail with
    | nil =>
      cases last
      exact ⟨x,found⟩
    | cons _ _ => exact ih (by simpa using last)

-- A search that goes on only to cells other than the one it stops at, along a route to
-- that one, takes at most as many rounds as the route has cells.
theorem search_ends {γ : Type} {search : Nat → α → Option γ} {step : α → α → Prop} {stop : α} {rest : List α}
    (rounds : ∀ a b, step a b → ∀ fuel, (∃ found, search (fuel+1) a = some found) ∨ (b ≠ stop ∧ search (fuel+1) a = search fuel b))
    (route : (a :: rest ++ [stop]).IsChain step) (enough : rest.length < fuel) : ∃ found, search fuel a = some found := by
  induction rest generalizing a fuel with
  | nil =>
    obtain ⟨fuel,rfl⟩ : ∃ less, fuel = less + 1 := ⟨fuel - 1,by omega⟩
    have back : step a stop := List.isChain_pair.mp route
    rcases rounds a stop back fuel with found | ⟨different,_⟩
    · exact found
    · exact absurd rfl different
  | cons b rest ih =>
    rw [List.length_cons] at enough
    obtain ⟨fuel,rfl⟩ : ∃ less, fuel = less + 1 := ⟨fuel - 1,by omega⟩
    obtain ⟨here,later⟩ := List.isChain_cons_cons.mp route
    rcases rounds a b here fuel with found | ⟨_,same⟩
    · exact found
    · rw [same]
      exact ih later (by omega)

-- `b`, with the value `y`, comes right behind `a`.
def Follows (cells : List (α × β)) (a b : α) (y : β) : Prop :=
  ∃ before x after, cells = before ++ (a,x) :: (b,y) :: after

@[simp] theorem not_follows_nil : ¬ Follows ([] : List (α × β)) a b y := by
  rintro ⟨before,x,after,split⟩
  cases before <;> cases split

theorem follows_cons : Follows ((a,x) :: after) b c y ↔ (b = a ∧ after.head? = some (c,y)) ∨ Follows after b c y := by
  constructor
  · intro ⟨front,z,back,split⟩
    cases front with
    | nil =>
      cases split
      exact Or.inl ⟨rfl,rfl⟩
    | cons cell front =>
      obtain ⟨_,rfl⟩ := List.cons.inj split
      exact Or.inr ⟨front,z,back,rfl⟩
  · rintro (⟨rfl,next⟩ | ⟨front,z,back,rfl⟩)
    · cases after with
      | nil => cases next
      | cons cell after =>
        cases next
        exact ⟨[],x,after,rfl⟩
    · exact ⟨(a,x) :: front,z,back,rfl⟩

theorem split_unique {front rest : List (α × β)} {z : β} (once : (addresses (before ++ (a,x) :: after)).Nodup)
    (split : before ++ (a,x) :: after = front ++ (a,z) :: rest) : before = front ∧ x = z ∧ after = rest := by
  induction before generalizing front with
  | nil =>
    cases front with
    | nil =>
      cases split
      exact ⟨rfl,rfl,rfl⟩
    | cons cell front =>
      obtain ⟨rfl,rfl⟩ := List.cons.inj split
      simp at once
  | cons cell before ih =>
    cases front with
    | nil =>
      obtain ⟨rfl,_⟩ := List.cons.inj split
      simp at once
    | cons other front =>
      obtain ⟨rfl,tail⟩ := List.cons.inj split
      obtain ⟨rfl,rest⟩ := ih (List.nodup_cons.mp once).2 tail
      exact ⟨rfl,rest⟩

theorem entry_unique (once : (addresses cells).Nodup) (one : (a,x) ∈ cells) (two : (a,y) ∈ cells) : x = y := by
  obtain ⟨before,after,rfl⟩ := List.append_of_mem one
  obtain ⟨front,back,split⟩ := List.append_of_mem two
  exact (split_unique once split).2.1

theorem follows_at (once : (addresses (before ++ (a,x) :: after)).Nodup) :
    Follows (before ++ (a,x) :: after) a b y ↔ after.head? = some (b,y) := by
  constructor
  · intro ⟨front,z,rest,split⟩
    obtain ⟨_,_,rfl⟩ := split_unique once split
    rfl
  · intro first
    cases after with
    | nil => cases first
    | cons cell rest =>
      cases first
      exact ⟨before,x,rest,rfl⟩

theorem Follows.mem (follows : Follows cells a b y) : a ∈ addresses cells ∧ (b,y) ∈ cells := by
  obtain ⟨before,x,after,rfl⟩ := follows
  exact ⟨by simp,by simp⟩

theorem Follows.behind (follows : Follows ((a,x) :: after) b c y) : (c,y) ∈ after := by
  rcases follows_cons.mp follows with ⟨_,next⟩ | later
  · exact List.mem_of_mem_head? next
  · exact later.mem.2

theorem not_mem_removed (once : (addresses (before ++ (a,x) :: (b,y) :: after)).Nodup) :
    b ∉ addresses (before ++ (a,x) :: after) := by
  have moved : before ++ (a,x) :: (b,y) :: after = (before ++ [(a,x)]) ++ (b,y) :: after := by simp
  rw [moved] at once
  obtain ⟨notBefore,notAfter⟩ := not_mem_halves once
  simp only [addresses_append,addresses_cons,addresses_nil,List.mem_append,List.mem_cons,List.not_mem_nil,
    or_false,not_or] at notBefore ⊢
  exact ⟨notBefore.1,notBefore.2,notAfter⟩

-- An inserted cell changes what follows the cell before it, and nothing else.
theorem follows_other {c n : α} {w z : β} (once : (addresses (before ++ (a,x) :: (n,w) :: after)).Nodup) (notHere : c ≠ a)
    (notNew : c ≠ n) : Follows (before ++ (a,x) :: (n,w) :: after) c b z ↔ Follows (before ++ (a,x) :: after) c b z := by
  have short : (addresses (before ++ (a,x) :: after)).Nodup := by
    exact once.sublist (List.Sublist.map _ sublist_behind)
  by_cases first : c ∈ addresses before
  · obtain ⟨front,u,rest,rfl⟩ := mem_split first
    simp only [List.append_assoc,List.cons_append] at once short ⊢
    rw [follows_at once,follows_at short]
    cases rest <;> simp
  by_cases later : c ∈ addresses after
  · obtain ⟨front,u,rest,rfl⟩ := mem_split later
    have long : before ++ (a,x) :: (n,w) :: (front ++ (c,u) :: rest) =
        (before ++ (a,x) :: (n,w) :: front) ++ (c,u) :: rest := by simp
    have less : before ++ (a,x) :: (front ++ (c,u) :: rest) = (before ++ (a,x) :: front) ++ (c,u) :: rest := by simp
    rw [long] at once ⊢
    rw [less] at short ⊢
    rw [follows_at once,follows_at short]
  · constructor
    · intro follows
      have member := follows.mem.1
      simp [first,later,notHere,notNew] at member
    · intro follows
      have member := follows.mem.1
      simp [first,later,notHere] at member

end Linked
