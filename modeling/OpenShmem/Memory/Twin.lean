import OpenShmem.Library.Relational
import OpenShmem.Memory.Safety
import Mathlib.Data.Nat.ModEq

namespace OpenShmem
open Relational

-- Two regions at different bases: an address in one and its counterpart in the other.
def AddrTwin (base other p q : Nat) : Prop := ∃ offset, p = base + offset ∧ q = other + offset

-- `kept` names the descriptors that a list or a map may lead to; those that heap_malloc
-- leaves behind when it returns NULL hold whatever their memory held.
structure BlockTwin (base other : Nat) (kept : Nat → Prop) (one two : Block) : Prop where
  ptr : AddrTwin base other one.ptr two.ptr
  size : one.size = two.size
  next : one.next = two.next
  named : ∀ n, one.next = some n → kept n

def StoreTwin (base other : Nat) (kept : Nat → Prop) (store twin : Store) : Prop :=
  ∀ n, kept n → Option.Rel (BlockTwin base other kept) (store n) (twin n)

structure NodeTwin (kept : Nat → Prop) (one two : HashmapNode) : Prop where
  value : one.value = two.value
  named : kept one.value

-- A node made under a key outside of the region: the place of a descriptor.
def Misfiled (base size : Nat) (node : HashmapNode) : Prop := node.filed < base ∨ base + size < node.filed

instance (base size : Nat) (node : HashmapNode) : Decidable (Misfiled base size node) :=
  inferInstanceAs (Decidable (_ ∨ _))

-- The nodes of a bucket that were made under an address of the region.
def regular (base size : Nat) (chain : List HashmapNode) : List HashmapNode :=
  chain.filter fun node => ¬ Misfiled base size node

-- The bucket of any address holds, up to misfiled nodes, the same values as its counterpart.
structure MapTwin (base other size : Nat) (kept : Nat → Prop) (map twin : Hashmap) : Prop where
  nBuckets : map.nBuckets = twin.nBuckets
  chains : ∀ offset, List.Forall₂ (NodeTwin kept) (regular base size (getNode map (base + offset)))
    (regular other size (getNode twin (other + offset)))

-- The walk of hashmap_set does not stop at a misfiled node.
def SetClear (store : Store) (base size key : Nat) : List HashmapNode → Prop
  | [] => True
  | node :: rest =>
    (Misfiled base size node → ∃ found, implicitKey store node.value = some found ∧ key ≠ found) ∧
    ∀ found, implicitKey store node.value = some found → key = found ∨ SetClear store base size key rest

-- The walk of hashmap_remove does not stop at a misfiled node.
def RemoveClear (store : Store) (base size key : Nat) : List HashmapNode → Prop
  | [] => True
  | node :: rest =>
    (Misfiled base size node → ∃ block, store node.value = some block ∧ key ≠ block.ptr) ∧
    ∀ block, store node.value = some block → key = block.ptr ∨ RemoveClear store base size key rest

instance decidableSetClear : (chain : List HashmapNode) → Decidable (SetClear store base size key chain)
  | [] => isTrue trivial
  | node :: rest =>
    have : Decidable (SetClear store base size key rest) := decidableSetClear rest
    inferInstanceAs (Decidable ((Misfiled base size node →
      ∃ found, implicitKey store node.value = some found ∧ key ≠ found) ∧
      ∀ found, implicitKey store node.value = some found → key = found ∨ SetClear store base size key rest))

instance decidableRemoveClear : (chain : List HashmapNode) → Decidable (RemoveClear store base size key chain)
  | [] => isTrue trivial
  | node :: rest =>
    have : Decidable (RemoveClear store base size key rest) := decidableRemoveClear rest
    inferInstanceAs (Decidable ((Misfiled base size node →
      ∃ block, store node.value = some block ∧ key ≠ block.ptr) ∧
      ∀ block, store node.value = some block → key = block.ptr ∨ RemoveClear store base size key rest))

variable {base other size offset : Nat} {kept more : Nat → Prop} {store twin : Store}
  {map map' : Hashmap} {left right chain : List HashmapNode}

theorem AddrTwin.eq_iff (one : AddrTwin base other p q) (two : AddrTwin base other p' q') : p = p' ↔ q = q' := by
  obtain ⟨_,rfl,rfl⟩ := one
  obtain ⟨_,rfl,rfl⟩ := two
  omega

theorem BlockTwin.blockEnd (blocks : BlockTwin base other kept one two) :
    AddrTwin base other (blockEnd one) (blockEnd two) := by
  obtain ⟨offset,here,there⟩ := blocks.ptr
  have size := blocks.size
  exact ⟨offset + one.size,by unfold OpenShmem.blockEnd; omega,by unfold OpenShmem.blockEnd; omega⟩

theorem BlockTwin.mono (wider : ∀ n, kept n → more n) (blocks : BlockTwin base other kept one two) :
    BlockTwin base other more one two :=
  ⟨blocks.ptr,blocks.size,blocks.next,fun n linked => wider n (blocks.named n linked)⟩

theorem MapTwin.mono (wider : ∀ n, kept n → more n) (maps : MapTwin base other size kept map map') :
    MapTwin base other size more map map' :=
  ⟨maps.nBuckets,fun offset => (maps.chains offset).imp fun _ _ nodes => ⟨nodes.value,wider _ nodes.named⟩⟩

theorem StoreTwin.next (stores : StoreTwin base other kept store twin) (named : kept n) :
    Option.Rel (fun one two => one = two ∧ kept one) ((store n).bind Block.next) ((twin n).bind Block.next) := by
  refine rel_bind (stores n named) ?_
  intro one two _ _ blocks
  rw [← blocks.next]
  cases linked : one.next with
  | none => exact .none
  | some n => exact .some ⟨rfl,blocks.named n linked⟩

theorem implicitKey_eq : implicitKey store value =
    ((store value).bind Block.next).bind fun next => (store next).map Block.ptr := by
  simp only [implicitKey,Option.bind_eq_bind,Option.bind_assoc,Option.pure_def]
  refine Option.bind_congr fun block _ => Option.bind_congr fun next _ => ?_
  cases store next <;> rfl

theorem implicitKey_twin (stores : StoreTwin base other kept store twin) (named : kept value) :
    Option.Rel (AddrTwin base other) (implicitKey store value) (implicitKey twin value) := by
  rw [implicitKey_eq,implicitKey_eq]
  refine rel_bind (stores.next named) ?_
  rintro next _ _ _ ⟨rfl,named⟩
  exact rel_map (stores next named) fun _ _ blocks => blocks.ptr

-- Differences of addresses do not see the base.
theorem blockGap_twin {heap heap' : Heap} (sizes : heap.size = heap'.size)
    (stores : StoreTwin heap.ptr heap'.ptr kept store twin) (blocks : BlockTwin heap.ptr heap'.ptr kept one two) :
    Option.Rel Eq (blockGap store one heap) (blockGap twin two heap') := by
  obtain ⟨stop,here,there⟩ := blocks.blockEnd
  unfold blockGap
  rw [← blocks.next,here,there]
  cases linked : one.next with
  | none =>
    refine .some (congrArg sizeT ?_)
    unfold heapEnd
    omega
  | some next =>
    refine rel_map (stores next (blocks.named next linked)) ?_
    intro _ _ successors
    obtain ⟨start,low,high⟩ := successors.ptr
    refine congrArg sizeT ?_
    omega

theorem findBlock_twin {heap heap' : Heap} (sizes : heap.size = heap'.size) (heads : heap.head = heap'.head)
    (tails : heap.tail = heap'.tail) (tailKept : kept heap.tail)
    (stores : StoreTwin heap.ptr heap'.ptr kept store twin) (named : kept head) :
    Option.Rel (fun found other => found = other ∧ ∀ a, found = some a → kept a)
      (findBlock store heap bytes fuel head) (findBlock twin heap' bytes fuel head) := by
  induction fuel generalizing head with
  | zero => exact .none
  | succ fuel ih =>
    refine rel_bind (stores head named) ?_
    intro one two _ _ blocks
    refine rel_bind (blockGap_twin sizes stores blocks) ?_
    rintro gap _ _ _ rfl
    have next : nextBlock two heap' = nextBlock one heap := by simp only [nextBlock,blocks.next,tails]
    have nextKept : kept (nextBlock one heap) := by
      unfold nextBlock
      cases linked : one.next with
      | none => exact tailKept
      | some n => exact blocks.named n linked
    rw [next,← heads]
    refine rel_ite Iff.rfl (rel_ite Iff.rfl (.some ⟨rfl,by simp⟩) (ih nextKept)) (.some ⟨rfl,?_⟩)
    rintro a same
    cases same
    exact named

theorem setLoop_twin (stores : StoreTwin base other kept store twin) (keys : AddrTwin base other key key')
    (named : kept value) (nodes : List.Forall₂ (NodeTwin kept) left right) :
    Option.Rel (Option.Rel (List.Forall₂ (NodeTwin kept))) (setLoop store key value left)
      (setLoop twin key' value right) := by
  induction nodes with
  | nil => exact .some .none
  | cons first rest ih =>
    unfold setLoop
    rw [← first.value]
    refine rel_bind (implicitKey_twin stores first.named) ?_
    intro found found' _ _ founds
    refine rel_ite (keys.eq_iff founds) (.some (.some (.cons ⟨rfl,named⟩ rest))) ?_
    refine rel_bind ih ?_
    intro updated updated' _ _ results
    exact .some (rel_map results fun _ _ tails => .cons first tails)

theorem removeLoop_twin (stores : StoreTwin base other kept store twin) (keys : AddrTwin base other key key')
    (nodes : List.Forall₂ (NodeTwin kept) left right) :
    Option.Rel (Option.Rel fun hit hit' => hit.1 = hit'.1 ∧ kept hit.1 ∧ List.Forall₂ (NodeTwin kept) hit.2 hit'.2)
      (removeLoop store key left) (removeLoop twin key' right) := by
  induction nodes with
  | nil => exact .some .none
  | cons first rest ih =>
    unfold removeLoop
    rw [← first.value]
    refine rel_bind (stores _ first.named) ?_
    intro one two _ _ blocks
    refine rel_ite (keys.eq_iff blocks.ptr) (.some (.some ⟨rfl,first.named,rest⟩)) ?_
    refine rel_bind ih ?_
    intro removed removed' _ _ results
    exact .some (rel_map results fun _ _ hits => ⟨hits.1,hits.2.1,.cons first hits.2.2⟩)

-- A walk that stops at no misfiled node does on the bucket what it does on its regular nodes.
theorem setLoop_regular (clear : SetClear store base size key chain) :
    setLoop store key value (regular base size chain) =
      (setLoop store key value chain).map (Option.map (regular base size)) := by
  induction chain with
  | nil => rfl
  | cons node rest ih =>
    obtain ⟨passes,later⟩ := clear
    by_cases misfiled : Misfiled base size node
    · obtain ⟨found,keyed,different⟩ := passes misfiled
      have tail := ih ((later found keyed).resolve_left different)
      have dropped : ∀ nodes, regular base size (node :: nodes) = regular base size nodes := by
        intro nodes
        simp [regular,misfiled]
      rw [dropped,tail]
      simp only [setLoop,keyed,Option.bind_eq_bind,Option.bind_some,if_neg different]
      cases setLoop store key value rest with
      | none => rfl
      | some updated => cases updated <;> simp [dropped]
    · have stays : ∀ nodes, regular base size (node :: nodes) = node :: regular base size nodes := by
        intro nodes
        simp [regular,misfiled]
      have replaced : ∀ nodes, regular base size ({node with value := value} :: nodes) =
          {node with value := value} :: regular base size nodes := by
        intro nodes
        have also : ¬ Misfiled base size {node with value := value} := misfiled
        simp [regular,also]
      rw [stays]
      cases keyed : implicitKey store node.value with
      | none => simp [setLoop,keyed]
      | some found =>
        simp only [setLoop,keyed,Option.bind_eq_bind,Option.bind_some]
        by_cases same : key = found
        · simp [same,replaced]
        · rw [ih ((later found keyed).resolve_left same)]
          simp only [if_neg same]
          cases setLoop store key value rest with
          | none => rfl
          | some updated => cases updated <;> simp [stays]

theorem removeLoop_regular (clear : RemoveClear store base size key chain) :
    removeLoop store key (regular base size chain) =
      (removeLoop store key chain).map (Option.map (Prod.map id (regular base size))) := by
  induction chain with
  | nil => rfl
  | cons node rest ih =>
    obtain ⟨passes,later⟩ := clear
    by_cases misfiled : Misfiled base size node
    · obtain ⟨block,stored,different⟩ := passes misfiled
      have tail := ih ((later block stored).resolve_left different)
      have dropped : ∀ nodes, regular base size (node :: nodes) = regular base size nodes := by
        intro nodes
        simp [regular,misfiled]
      rw [dropped,tail]
      simp only [removeLoop,stored,Option.bind_eq_bind,Option.bind_some,if_neg different]
      cases removeLoop store key rest with
      | none => rfl
      | some removed => cases removed <;> simp [dropped,Prod.map]
    · have stays : ∀ nodes, regular base size (node :: nodes) = node :: regular base size nodes := by
        intro nodes
        simp [regular,misfiled]
      rw [stays]
      cases stored : store node.value with
      | none => simp [removeLoop,stored]
      | some block =>
        simp only [removeLoop,stored,Option.bind_eq_bind,Option.bind_some]
        by_cases same : key = block.ptr
        · simp [same]
        · rw [ih ((later block stored).resolve_left same)]
          simp only [if_neg same]
          cases removeLoop store key rest with
          | none => rfl
          | some removed => cases removed <;> simp [stays,Prod.map]

end OpenShmem
