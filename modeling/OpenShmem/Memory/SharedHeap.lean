import OpenShmem.Memory.Session

namespace OpenShmem

-- struct shared_heap_t. Its key names the mapping and is not read after that.
structure SharedHeap where
  heap : Heap

-- shared_heap_create, once the region is mapped.
def sharedHeapCreate (libc : Libc) (region : Nat) (size : Nat) : Store × SharedHeap :=
  let (store,heap) := heapInit libc region size
  (store,⟨heap⟩)

def sharedHeapMalloc (libc : Libc) (made : Nat) (store : Store) (sharedHeap : SharedHeap) (bytes : Nat) :
    Option (Store × SharedHeap × Option Nat) := do
  let (store,heap,result) ← heapMalloc libc made store sharedHeap.heap bytes
  return (store,⟨heap⟩,result)

def sharedHeapFree (store : Store) (sharedHeap : SharedHeap) (ptr : Nat) : Option (Store × SharedHeap) := do
  let (store,heap) ← heapFree store sharedHeap.heap ptr
  return (store,⟨heap⟩)

-- A PE's symmetric heap, the descriptors made for it, and what its shmem_malloc calls returned.
structure Symmetric where
  store : Store
  symmetricHeap : SharedHeap
  made : Nat
  returned : List (Option Nat)

def Symmetric.create (libc : Libc) (region : Region) : Symmetric :=
  let (store,sharedHeap) := sharedHeapCreate libc region.base region.size
  ⟨store,sharedHeap,1,[]⟩

def commHeapMalloc (libc : Libc) (pe : Symmetric) (size : Nat) : Option (Symmetric × Option Nat) := do
  let (store,sharedHeap,address) ← sharedHeapMalloc libc pe.made pe.store pe.symmetricHeap size
  return ({pe with store := store, symmetricHeap := sharedHeap, made := pe.made + 1},address)

def commHeapFree (pe : Symmetric) (ptr : Nat) : Option Symmetric := do
  let (store,sharedHeap) ← sharedHeapFree pe.store pe.symmetricHeap ptr
  return {pe with store := store, symmetricHeap := sharedHeap}

-- What comm_wireup does with the symmetric heap, before the user can: it allocates
-- __pSync, with an int for each of the comm_remote_n_pes() PEs.
def commWireup (libc : Libc) (region : Region) (nPes : Nat) : Option Symmetric := do
  let (pe,_) ← commHeapMalloc libc (Symmetric.create libc region) (4 * nPes)
  return pe

-- shmem_sync_all, which ends both calls, leaves the heap and its descriptors alone.
def shmemMalloc (libc : Libc) (pe : Symmetric) (size : Nat) : Option Symmetric := do
  let (pe,result) ← commHeapMalloc libc pe size
  return {pe with returned := pe.returned ++ [result]}

def shmemFree (pe : Symmetric) (ptr : Nat) : Option Symmetric := commHeapFree pe ptr

def Symmetric.call (libc : Libc) (pe : Symmetric) : Call → Option Symmetric
  | .malloc size => shmemMalloc libc pe size
  | .free ptr => shmemFree pe ptr

def symmetric (libc : Libc) : Guarded.Machine Symmetric Call := ⟨Symmetric.call libc⟩

-- The heap below, as a session in which nothing is live.
def Symmetric.session (pe : Symmetric) : Session := ⟨pe.store,pe.symmetricHeap.heap,pe.made,[],pe.returned⟩

variable {libc : Libc} {pe qe : Symmetric} {call : Call}

-- The layers above heap_malloc and heap_free pass arguments and results on.
theorem call_session (called : pe.call libc call = some qe) :
    ∃ t, pe.session.call libc call = some t ∧ t.store = qe.store ∧ t.heap = qe.symmetricHeap.heap ∧ t.made = qe.made ∧ t.results = qe.returned := by
  cases call with
  | malloc size =>
    obtain ⟨⟨middle,result⟩,comm,same⟩ := Option.bind_eq_some_iff.mp called
    cases same
    obtain ⟨⟨store,sharedHeap,address⟩,shared,same⟩ := Option.bind_eq_some_iff.mp comm
    cases same
    obtain ⟨⟨store,heap,result⟩,malloced,same⟩ := Option.bind_eq_some_iff.mp shared
    cases same
    exact ⟨_,session_malloc malloced,rfl,rfl,rfl,rfl⟩
  | free ptr =>
    obtain ⟨⟨store,sharedHeap⟩,shared,same⟩ := Option.bind_eq_some_iff.mp called
    cases same
    obtain ⟨⟨store,heap⟩,freed,same⟩ := Option.bind_eq_some_iff.mp shared
    cases same
    exact ⟨_,session_free freed,rfl,rfl,rfl,rfl⟩

-- The list and the map of a session say nothing about its ledger.
theorem Layout.congr (layout : Layout s cells) (store : s.store = t.store) (heap : s.heap = t.heap) (made : s.made = t.made) :
    Layout t cells := by
  cases s
  cases t
  cases store
  cases heap
  cases made
  exact ⟨layout.wf,layout.above,layout.made,layout.known⟩

theorem commWireup_session (started : commWireup libc region nPes = some pe) :
    pe.returned = [] ∧ ∃ t, (Session.start libc region).call libc (.malloc (4 * nPes)) = some t ∧
      t.store = pe.store ∧ t.heap = pe.symmetricHeap.heap ∧ t.made = pe.made := by
  obtain ⟨⟨middle,result⟩,comm,same⟩ := Option.bind_eq_some_iff.mp started
  cases same
  obtain ⟨⟨store,sharedHeap,address⟩,shared,same⟩ := Option.bind_eq_some_iff.mp comm
  cases same
  obtain ⟨⟨store,heap,found⟩,malloced,same⟩ := Option.bind_eq_some_iff.mp shared
  cases same
  have below : heapMalloc libc (Session.start libc region).made (Session.start libc region).store (Session.start libc region).heap
      (4 * nPes) = some (store,heap,_) := malloced
  exact ⟨rfl,_,session_malloc below,rfl,rfl,rfl⟩

end OpenShmem
