import OpenShmem.Library.Linked
import OpenShmem.Library.Machine
import Mathlib.Logic.Function.Basic

namespace LinkedQueue
open Linked

-- A queue of linked nodes: each holds an item and the address of its successor. When the
-- queue empties, the tail is left as it was.
structure Queue (α β : Type) where
  nodes : α → Option (β × Option α)
  head : Option α
  tail : Option α

-- An operation is none where the program would use a missing node.
structure Code (α β : Type) where
  enqueue : Queue α β → α → β → Option (Queue α β)
  dequeue : Queue α β → Option (Queue α β × Option β)

variable {α β : Type}

-- `new` is the address that the allocator gives for the node.
def enqueue [DecidableEq α] (q : Queue α β) (new : α) (item : β) : Option (Queue α β) :=
  match q.head with
  | none => some ⟨Function.update q.nodes new (some (item,none)),some new,some new⟩
  | some first => do
    let last ← q.tail
    let node ← q.nodes last
    let linked := Function.update q.nodes last (some (node.1,some new))
    some ⟨Function.update linked new (some (item,none)),some first,some new⟩

-- `frees` tells whether the node is given back to the allocator.
def dequeue [DecidableEq α] (frees : Bool) (q : Queue α β) : Option (Queue α β × Option β) :=
  match q.head with
  | none => some (q,none)
  | some first => do
    let node ← q.nodes first
    some ({q with nodes := if frees then Function.update q.nodes first none else q.nodes, head := node.2},some node.1)

def code [DecidableEq α] (frees : Bool) : Code α β := ⟨enqueue,dequeue frees⟩

-- The node whose successor an enqueue sets, through the tail pointer.
def Queue.written (q : Queue α β) : Option α := q.head.bind fun _ => q.tail

variable {q q' : Queue α β} {items : List β} {cells : List (α × β)} {a new : α} {item : β} {frees : Bool}

-- The nodes from the head on, and that the tail is the last one of them, if there is one.
structure Holds (q : Queue α β) (cells : List (α × β)) : Prop where
  chain : Chain q.nodes q.head cells
  tail : ∀ front a x, cells = front ++ [(a,x)] → q.tail = some a

theorem Holds.empty (holds : Holds q []) : q.head = none := by
  have chain := holds.chain
  cases here : q.head with
  | none => rfl
  | some first =>
    rw [here] at chain
    cases chain

theorem Holds.first (holds : Holds q ((a,item) :: cells)) :
    q.head = some a ∧ ∃ next, q.nodes a = some (item,next) ∧ Chain q.nodes next cells := by
  obtain ⟨here,next,found,rest⟩ := holds.chain.head
  exact ⟨here,next,found,rest⟩

-- The node that is written through the tail pointer is the last one of the queue.
theorem Holds.written_listed (holds : Holds q cells) (written : q.written = some a) : a ∈ addresses cells := by
  rcases List.eq_nil_or_concat cells with rfl | ⟨front,⟨last,x⟩,rfl⟩
  · simp [Queue.written,holds.empty] at written
  · rw [List.concat_eq_append] at holds ⊢
    have tail := holds.tail front last x rfl
    obtain ⟨_,_,same⟩ := Option.bind_eq_some_iff.mp written
    cases tail.symm.trans same
    simp

theorem Holds.unlisted (holds : Holds q cells) (free : q.nodes new = none) : new ∉ addresses cells := by
  intro member
  obtain ⟨x,listed⟩ := mem_addresses.mp member
  obtain ⟨next,found⟩ := holds.chain.look_eq listed
  rw [free] at found
  cases found

variable [DecidableEq α]

theorem enqueue_other (ran : enqueue q new item = some q') (notNew : a ≠ new) (notWritten : q.written ≠ some a) :
    q'.nodes a = q.nodes a := by
  unfold enqueue at ran
  split at ran
  · cases ran
    simp [notNew]
  · rename_i first head
    obtain ⟨last,tail,ran⟩ := Option.bind_eq_some_iff.mp ran
    obtain ⟨node,_,made⟩ := Option.bind_eq_some_iff.mp ran
    cases made
    have other : a ≠ last := by
      rintro rfl
      exact notWritten (by simp [Queue.written,head,tail])
    simp [notNew,other]

-- Enqueueing never fails, and puts the item behind all others.
theorem Holds.enqueue (holds : Holds q cells) (free : q.nodes new = none) (item : β) :
    ∃ q', LinkedQueue.enqueue q new item = some q' ∧ Holds q' (cells ++ [(new,item)]) := by
  have tail : ∀ front a x, cells ++ [(new,item)] = front ++ [(a,x)] → some new = some a := by
    intro front a x same
    obtain ⟨_,last⟩ := List.append_inj' same rfl
    cases last
    rfl
  rcases List.eq_nil_or_concat cells with rfl | ⟨front,⟨last,x⟩,rfl⟩
  · refine ⟨_,by simp only [LinkedQueue.enqueue,holds.empty]; rfl,?_,tail⟩
    exact .cons (by simp) .nil
  · rw [List.concat_eq_append] at holds tail ⊢
    have unlisted := holds.unlisted free
    have ends := holds.tail front last x rfl
    obtain ⟨next,found,rest⟩ := holds.chain.at
    cases rest
    obtain ⟨first,head⟩ : ∃ first, q.head = some first := by
      cases front with
      | nil => exact ⟨_,holds.first.1⟩
      | cons cell front => exact ⟨_,holds.first.1⟩
    have apart : new ≠ last := by
      rintro rfl
      simp at unlisted
    refine ⟨_,by simp only [LinkedQueue.enqueue,head,ends,found,Option.bind_eq_bind,Option.bind_some]; rfl,?_,tail⟩
    have inserted : Chain (Function.update (Function.update q.nodes last (some (x,some new))) new (some (item,none)))
        (some first) (front ++ (last,x) :: [(new,item)]) := by
      refine (head ▸ holds.chain).insert unlisted found ?_ (Function.update_self ..) ?_
      · simp [Ne.symm apart]
      · intro c notLast notNew
        simp [notLast,notNew]
    simpa using inserted

-- Dequeueing never fails: it takes the first item, or gives NULL if there is none.
theorem Holds.dequeue_empty (holds : Holds q []) (frees : Bool) : dequeue frees q = some (q,none) := by
  simp [dequeue,holds.empty]

theorem Holds.dequeue (holds : Holds q ((a,item) :: cells)) (frees : Bool) :
    ∃ q', LinkedQueue.dequeue frees q = some (q',some item) ∧ Holds q' cells ∧ q'.tail = q.tail ∧
      ∀ c, c ≠ a → q'.nodes c = q.nodes c := by
  obtain ⟨head,next,found,rest⟩ := holds.first
  have other : ∀ c, c ≠ a → (if frees then Function.update q.nodes a none else q.nodes) c = q.nodes c := by
    intro c different
    cases frees <;> simp [different]
  refine ⟨{q with nodes := if frees then Function.update q.nodes a none else q.nodes, head := next},
    by simp only [LinkedQueue.dequeue,head,found,Option.bind_eq_bind,Option.bind_some],⟨?_,?_⟩,rfl,other⟩
  · refine rest.frame fun c member => other c ?_
    rintro rfl
    exact (List.nodup_cons.mp holds.chain.nodup).1 member
  · intro front b x same
    exact holds.tail ((a,item) :: front) b x (by rw [same]; rfl)

-- The queue as a list of items.
def Represents (q : Queue α β) (items : List β) : Prop := ∃ cells, Holds q cells ∧ cells.map Prod.snd = items

theorem Represents.enqueue (represents : Represents q items) (free : q.nodes new = none) (item : β) :
    ∃ q', LinkedQueue.enqueue q new item = some q' ∧ Represents q' (items ++ [item]) := by
  obtain ⟨cells,holds,rfl⟩ := represents
  obtain ⟨q',ran,next⟩ := holds.enqueue free item
  exact ⟨q',ran,_,next,by simp⟩

theorem Represents.dequeue (represents : Represents q items) (frees : Bool) :
    ∃ q', LinkedQueue.dequeue frees q = some (q',items.head?) ∧ Represents q' items.tail := by
  obtain ⟨cells,holds,rfl⟩ := represents
  cases cells with
  | nil => exact ⟨q,holds.dequeue_empty frees,[],holds,rfl⟩
  | cons cell cells =>
    obtain ⟨q',ran,next,_⟩ := holds.dequeue frees
    exact ⟨q',ran,cells,next,rfl⟩

-- A history of operations, each as a whole under the lock. `enqueued` and `returned` are
-- the items in the order of the operations, and `removed` the nodes that were dequeued,
-- until the allocator gives their memory out again.
structure History (α β : Type) where
  queue : Queue α β
  enqueued : List β
  returned : List β
  removed : List α

inductive Operation (α β : Type) where
  | enqueue (thread : Nat) (item : β) (new : α)
  | dequeue (thread : Nat)

-- The allocator gives an address that is not in use.
def History.step (code : Code α β) (s : History α β) : Operation α β → Option (History α β)
  | .enqueue _ item new =>
    match s.queue.nodes new with
    | some _ => none
    | none => (code.enqueue s.queue new item).map fun queue =>
      {s with queue := queue, enqueued := s.enqueued ++ [item], removed := s.removed.filter (· ≠ new)}
  | .dequeue _ => (code.dequeue s.queue).map fun (queue,result) =>
    {s with queue := queue, returned := s.returned ++ result.toList, removed := s.queue.head.toList ++ s.removed}

def histories (code : Code α β) : Guarded.Machine (History α β) (Operation α β) := ⟨History.step code⟩

def History.start : History α β := ⟨⟨fun _ => none,none,none⟩,[],[],[]⟩

-- Items come out in the order they went in, each once; NULL comes out just when all of
-- them did. Both operations are defined, and an enqueue writes no removed node.
structure Fifo (code : Code α β) (s : History α β) : Prop where
  order : s.returned <+: s.enqueued
  null : ∃ q result, code.dequeue s.queue = some (q,result) ∧ (result = none ↔ s.returned = s.enqueued)
  defined : ∀ new item, s.queue.nodes new = none → ∃ q, code.enqueue s.queue new item = some q
  written : ∀ a, s.queue.written = some a → a ∉ s.removed
  kept : ∀ new item q, code.enqueue s.queue new item = some q → ∀ a ∈ s.removed, a ≠ new → q.nodes a = s.queue.nodes a

structure Valid (s : History α β) (cells : List (α × β)) : Prop where
  holds : Holds s.queue cells
  items : s.enqueued = s.returned ++ cells.map Prod.snd
  removed : ∀ a ∈ addresses cells, a ∉ s.removed

omit [DecidableEq α] in
theorem start_valid : Valid (History.start : History α β) [] := by
  refine ⟨⟨.nil,?_⟩,rfl,by simp⟩
  intro front a x same
  simp at same

theorem step_valid {s t : History α β} (valid : Valid s cells) (stepped : s.step (code frees) operation = some t) :
    ∃ cells, Valid t cells := by
  obtain ⟨holds,items,removed⟩ := valid
  cases operation with
  | enqueue thread item new =>
    simp only [History.step] at stepped
    split at stepped
    · cases stepped
    rename_i free
    obtain ⟨q,ran,made⟩ := Option.map_eq_some_iff.mp stepped
    obtain ⟨q',also,next⟩ := holds.enqueue free item
    cases ran.symm.trans also
    cases made
    refine ⟨_,next,by simp [items],?_⟩
    intro a member gone
    obtain ⟨old,other⟩ := List.mem_filter.mp gone
    rw [addresses_append,List.mem_append] at member
    rcases member with listed | here
    · exact removed a listed old
    · cases List.mem_singleton.mp here
      simp at other
  | dequeue thread =>
    obtain ⟨⟨q,result⟩,ran,made⟩ := Option.map_eq_some_iff.mp stepped
    cases made
    cases cells with
    | nil =>
      cases ran.symm.trans (holds.dequeue_empty frees)
      exact ⟨[],holds,by simp [items],by simp⟩
    | cons cell cells =>
      obtain ⟨a,item⟩ := cell
      obtain ⟨q',also,next,_⟩ := holds.dequeue frees
      cases ran.symm.trans also
      refine ⟨cells,next,by simp [items],?_⟩
      intro b member gone
      rw [holds.first.1] at gone
      rcases List.mem_cons.mp gone with rfl | old
      · exact (List.nodup_cons.mp holds.chain.nodup).1 member
      · exact removed b (List.mem_cons_of_mem _ member) old

theorem Valid.fifo {s : History α β} (valid : Valid s cells) (frees : Bool) : Fifo (code frees) s := by
  obtain ⟨holds,items,removed⟩ := valid
  have untouched : ∀ a, s.queue.written = some a → a ∉ s.removed := fun a written => removed a (holds.written_listed written)
  refine ⟨?_,?_,?_,untouched,?_⟩
  · rw [items]
    exact List.prefix_append _ _
  · obtain ⟨q,ran,_⟩ := Represents.dequeue ⟨cells,holds,rfl⟩ frees
    refine ⟨q,_,ran,?_⟩
    rw [items]
    cases cells <;> simp
  · intro new item free
    obtain ⟨q,ran,_⟩ := holds.enqueue free item
    exact ⟨q,ran⟩
  · intro new item q ran a gone notNew
    exact enqueue_other ran notNew fun written => untouched a written gone

theorem run_fifo {s : History α β} (ran : (histories (code frees)).run History.start operations = some s) :
    Fifo (code frees) s := by
  have kept : ∀ (s : History α β) operation t, (∃ cells, Valid s cells) →
      (histories (code frees)).step s operation = some t → ∃ cells, Valid t cells := by
    intro s operation t valid stepped
    obtain ⟨cells,valid⟩ := valid
    exact step_valid valid stepped
  obtain ⟨cells,valid⟩ := Guarded.Machine.run_invariant kept ⟨[],start_valid⟩ ran
  exact valid.fifo frees

end LinkedQueue
