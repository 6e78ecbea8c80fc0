import OpenShmem.Library.Linked
import Mathlib.Algebra.Group.Nat.Defs
import Mathlib.Logic.Function.Basic

namespace OpenShmem

-- struct block_t. Addresses in the region are natural numbers. A descriptor is named by
-- its place in the order in which libc malloc made them; a NULL pointer is none.
structure Block where
  ptr : Nat
  size : Nat
  next : Option Nat
deriving DecidableEq, Repr

-- The descriptors that were made and not freed again. Reading any other one is undefined
-- behaviour, also when its memory is in use again; every function below returns none then.
abbrev Store := Nat → Option Block

def Store.write (store : Store) (name : Nat) (block : Block) : Store :=
  Function.update store name (some block)

def Store.release (store : Store) (name : Nat) : Store :=
  Function.update store name none

@[simp] theorem Store.write_same (store : Store) : store.write a block a = some block := by
  simp [Store.write]
@[simp] theorem Store.write_other (store : Store) (other : c ≠ a) : store.write a block c = store c := by
  simp [Store.write,other]
@[simp] theorem Store.release_same (store : Store) : store.release a a = none := by
  simp [Store.release]
@[simp] theorem Store.release_other (store : Store) (other : c ≠ a) : store.release a c = store c := by
  simp [Store.release,other]

-- struct hashmap_node_t. `filed` is a ghost: the key of the hashmap_set call that made
-- the node. The code does not store it and no function below reads it.
structure HashmapNode where
  value : Nat
  filed : Nat
deriving DecidableEq, Repr

-- struct hashmap_t. A bucket is the list of its nodes, the chain's first node first.
structure Hashmap where
  nBuckets : Nat
  buckets : Nat → List HashmapNode

-- HASH_FUNC
def hashFunc (key : Nat) (nBuckets : Nat) : Nat := key % nBuckets

-- (long)a % b, for the addresses that a user process has.
theorem hashFunc_long {nBuckets : Nat} (user : key < 2^63) :
    (BitVec.ofNat 64 key).toInt.tmod nBuckets = hashFunc key nBuckets := by
  have wide : (BitVec.ofNat 64 key).toNat = key := Nat.mod_eq_of_lt (by omega)
  have positive : (BitVec.ofNat 64 key).toInt = key := by
    rw [BitVec.toInt_eq_toNat_of_lt (by omega),wide]
  rw [positive,Int.tmod_eq_emod_of_nonneg (Int.natCast_nonneg key)]
  rfl

-- value->next->ptr, the key that hashmap_get and hashmap_set compare with.
def implicitKey (store : Store) (value : Nat) : Option Nat := do
  let block ← store value
  let next ← block.next
  let successor ← store next
  return successor.ptr

def hashmapInit (nBuckets : Nat) : Hashmap := ⟨nBuckets,fun _ => []⟩

def Hashmap.put (map : Hashmap) (index : Nat) (chain : List HashmapNode) : Hashmap :=
  {map with buckets := Function.update map.buckets index chain}

@[simp] theorem Hashmap.put_nBuckets (map : Hashmap) : (map.put index chain).nBuckets = map.nBuckets := rfl
@[simp] theorem Hashmap.put_same (map : Hashmap) : (map.put index chain).buckets index = chain := by
  simp [Hashmap.put]
@[simp] theorem Hashmap.put_other (map : Hashmap) (other : i ≠ index) :
    (map.put index chain).buckets i = map.buckets i := by
  simp [Hashmap.put,other]

-- GET_NODE: the chain of the key's bucket.
def getNode (map : Hashmap) (key : Nat) : List HashmapNode :=
  map.buckets (hashFunc key map.nBuckets)

def getLoop (store : Store) (key : Nat) : List HashmapNode → Option (Option Nat)
  | [] => some none
  | node :: rest => do
    let found ← implicitKey store node.value
    if key = found then some (some node.value) else getLoop store key rest

def hashmapGet (store : Store) (map : Hashmap) (key : Nat) : Option (Option Nat) :=
  getLoop store key (getNode map key)

-- The chain with the matching node's value replaced; `some none` if no node matches.
def setLoop (store : Store) (key value : Nat) : List HashmapNode → Option (Option (List HashmapNode))
  | [] => some none
  | node :: rest => do
    let found ← implicitKey store node.value
    if key = found then some (some ({node with value := value} :: rest))
    else do
      let updated ← setLoop store key value rest
      some (updated.map (node :: ·))

def hashmapSet (store : Store) (map : Hashmap) (key value : Nat) : Option Hashmap := do
  let index := hashFunc key map.nBuckets
  let updated ← setLoop store key value (map.buckets index)
  return map.put index (updated.getD (⟨value,key⟩ :: map.buckets index))

-- hashmap_remove compares the key with value->ptr. The early return on an empty bucket
-- is the loop's own result there.
def removeLoop (store : Store) (key : Nat) : List HashmapNode → Option (Option (Nat × List HashmapNode))
  | [] => some none
  | node :: rest => do
    let block ← store node.value
    if key = block.ptr then some (some (node.value,rest))
    else do
      let removed ← removeLoop store key rest
      some (removed.map fun hit => (hit.1,node :: hit.2))

def hashmapRemove (store : Store) (map : Hashmap) (key : Nat) : Option (Option Nat × Hashmap) := do
  let index := hashFunc key map.nBuckets
  let removed ← removeLoop store key (map.buckets index)
  return match removed with
    | none => (none,map)
    | some (value,chain) => (some value,map.put index chain)

-- Some node of the map has this value.
def Hashmap.Holds (map : Hashmap) (value : Nat) : Prop :=
  ∃ index, ∃ node ∈ map.buckets index, node.value = value

theorem setLoop_mem (ran : setLoop store key value chain = some (some updated)) (member : node ∈ updated) :
    node.value = value ∨ node ∈ chain := by
  induction chain generalizing updated with
  | nil => cases ran
  | cons first rest ih =>
    simp only [setLoop,Option.bind_eq_bind,Option.bind_eq_some_iff] at ran
    obtain ⟨found,_,ran⟩ := ran
    split at ran
    · cases ran
      rcases List.mem_cons.mp member with rfl | later
      · exact Or.inl rfl
      · exact Or.inr (List.mem_cons_of_mem _ later)
    · obtain ⟨result,inner,ran⟩ := Option.bind_eq_some_iff.mp ran
      cases result with
      | none => cases ran
      | some tail =>
        cases ran
        rcases List.mem_cons.mp member with rfl | later
        · exact Or.inr List.mem_cons_self
        · exact (ih inner later).imp_right (List.mem_cons_of_mem _)

theorem hashmapSet_eq (loop : setLoop store key value (getNode map key) = some updated) :
    hashmapSet store map key value =
      some (map.put (hashFunc key map.nBuckets) (updated.getD (⟨value,key⟩ :: getNode map key))) := by
  unfold getNode at loop
  simp only [hashmapSet,loop,Option.bind_eq_bind,Option.bind_some]
  rfl

theorem hashmapSet_cases (ran : hashmapSet store map key value = some after) :
    ∃ updated, setLoop store key value (getNode map key) = some updated ∧
      after = map.put (hashFunc key map.nBuckets) (updated.getD (⟨value,key⟩ :: getNode map key)) := by
  obtain ⟨updated,loop,same⟩ := Option.bind_eq_some_iff.mp ran
  cases same
  exact ⟨updated,loop,rfl⟩

theorem hashmapSet_holds (ran : hashmapSet store map key value = some after) (holds : after.Holds v) :
    v = value ∨ map.Holds v := by
  obtain ⟨updated,loop,rfl⟩ := hashmapSet_cases ran
  obtain ⟨index,node,member,rfl⟩ := holds
  by_cases here : index = hashFunc key map.nBuckets
  · subst index
    rw [Hashmap.put_same] at member
    cases updated with
    | none =>
      rcases List.mem_cons.mp member with rfl | old
      · exact Or.inl rfl
      · exact Or.inr ⟨_,node,old,rfl⟩
    | some chain => exact (setLoop_mem loop member).imp_right fun old => ⟨_,node,old,rfl⟩
  · rw [Hashmap.put_other _ here] at member
    exact Or.inr ⟨index,node,member,rfl⟩

-- What hashmap_remove takes out is a node of the chain whose value starts at the key.
theorem removeLoop_found (ran : removeLoop store key chain = some (some (value,rest))) :
    (∃ block, store value = some block ∧ block.ptr = key) ∧
      ∃ node, node.value = value ∧ node ∈ chain ∧ ∀ other ∈ rest, other ∈ chain := by
  induction chain generalizing rest with
  | nil => cases ran
  | cons first tail ih =>
    simp only [removeLoop,Option.bind_eq_bind,Option.bind_eq_some_iff] at ran
    obtain ⟨block,stored,ran⟩ := ran
    split at ran
    · rename_i same
      cases ran
      exact ⟨⟨block,stored,same.symm⟩,first,rfl,List.mem_cons_self,
        fun _ member => List.mem_cons_of_mem _ member⟩
    · obtain ⟨result,inner,ran⟩ := Option.bind_eq_some_iff.mp ran
      cases result with
      | none => cases ran
      | some hit =>
        cases ran
        obtain ⟨starts,node,same,member,sub⟩ := ih inner
        refine ⟨starts,node,same,List.mem_cons_of_mem _ member,?_⟩
        intro other present
        rcases List.mem_cons.mp present with rfl | later
        · exact List.mem_cons_self
        · exact List.mem_cons_of_mem _ (sub other later)

theorem hashmapRemove_absent (loop : removeLoop store key (getNode map key) = some none) :
    hashmapRemove store map key = some (none,map) := by
  unfold getNode at loop
  simp only [hashmapRemove,loop,Option.bind_eq_bind,Option.bind_some]
  rfl

theorem hashmapRemove_hit (loop : removeLoop store key (getNode map key) = some (some (value,rest))) :
    hashmapRemove store map key = some (some value,map.put (hashFunc key map.nBuckets) rest) := by
  unfold getNode at loop
  simp only [hashmapRemove,loop,Option.bind_eq_bind,Option.bind_some]
  rfl

theorem hashmapRemove_cases (ran : hashmapRemove store map key = some (found,after)) :
    (removeLoop store key (getNode map key) = some none ∧ found = none ∧ after = map) ∨
    ∃ value rest, removeLoop store key (getNode map key) = some (some (value,rest)) ∧
      found = some value ∧ after = map.put (hashFunc key map.nBuckets) rest := by
  obtain ⟨removed,loop,same⟩ := Option.bind_eq_some_iff.mp ran
  cases removed with
  | none => cases same; exact Or.inl ⟨loop,rfl,rfl⟩
  | some hit => cases same; exact Or.inr ⟨hit.1,hit.2,loop,rfl,rfl⟩

theorem hashmapRemove_holds (ran : hashmapRemove store map key = some (found,after)) (holds : after.Holds v) :
    map.Holds v := by
  rcases hashmapRemove_cases ran with ⟨_,_,rfl⟩ | ⟨value,rest,loop,_,rfl⟩
  · exact holds
  · obtain ⟨index,node,member,rfl⟩ := holds
    by_cases here : index = hashFunc key map.nBuckets
    · subst index
      rw [Hashmap.put_same] at member
      obtain ⟨_,_,_,_,sub⟩ := removeLoop_found loop
      exact ⟨_,node,sub node member,rfl⟩
    · rw [Hashmap.put_other _ here] at member
      exact ⟨index,node,member,rfl⟩

end OpenShmem
