import OpenShmem.Memory.Hashmap
import Mathlib.Algebra.Group.Nat.Defs
import Mathlib.Algebra.Group.Int.Defs

namespace OpenShmem

structure Heap where
  ptr : Nat
  head : Nat
  tail : Nat
  blockMap : Hashmap
  size : Nat

def numBuckets : Nat := 1023

def sizeT (difference : Int) : Nat := (difference % 2^64).toNat

def blockEnd (block : Block) : Nat := block.ptr + block.size
def heapEnd (heap : Heap) : Nat := heap.ptr + heap.size

def blockGap (store : Store) (block : Block) (heap : Heap) : Option Nat :=
  match block.next with
  | none => some (sizeT ((heapEnd heap : Int) - blockEnd block))
  | some next => (store next).map fun successor => sizeT ((successor.ptr : Int) - blockEnd block)

def nextBlock (block : Block) (heap : Heap) : Nat := block.next.getD heap.tail

-- Where libc malloc places each descriptor, maybe where a freed one was, and what was there.
structure Libc where
  place : Nat → Nat
  prior : Nat → Block

-- The dummy block is the descriptor made first.
def heapInit (libc : Libc) (region : Nat) (size : Nat) : Store × Heap :=
  (Store.write (fun _ => none) 0 {libc.prior 0 with ptr := region, size := 0},
    { ptr := region, head := 0, tail := 0, blockMap := hashmapInit numBuckets, size := size })

-- `some none` is the return of NULL. The fuel of one unit for each descriptor only runs out
-- where the loop meets one twice and goes round for ever.
def findBlock (store : Store) (heap : Heap) (bytes : Nat) : Nat → Nat → Option (Option Nat)
  | 0,_ => none
  | fuel+1,head => do
    let block ← store head
    let gap ← blockGap store block heap
    if gap < bytes then
      if nextBlock block heap = heap.head then some none
      else findBlock store heap bytes fuel (nextBlock block heap)
    else some (some head)

def allocate (libc : Libc) (store : Store) (new : Nat) (bytes : Nat) : Store :=
  store.write new {libc.prior new with size := bytes}

-- The key is the place of the next block's descriptor, not the block's address.
def updateNext (libc : Libc) (store : Store) (blockMap : Hashmap) (block : Block) (new : Nat) : Option Hashmap :=
  match block.next with
  | none => some blockMap
  | some next => hashmapSet store blockMap (libc.place next) new

def insertBlock (store : Store) (head : Nat) (block : Block) (new : Nat) (bytes : Nat) : Store :=
  (store.write new ⟨blockEnd block,bytes,block.next⟩).write head {block with next := some new}

def heapMalloc (libc : Libc) (made : Nat) (store : Store) (heap : Heap) (bytes : Nat) :
    Option (Store × Heap × Option Nat) := do
  let store := allocate libc store made bytes
  match ← findBlock store heap bytes made heap.head with
  | none => return (store,heap,none)
  | some head =>
    let block ← store head
    let blockMap ← updateNext libc store heap.blockMap block made
    let store := insertBlock store head block made bytes
    let blockMap ← hashmapSet store blockMap (blockEnd block) head
    return (store,{heap with head := made, blockMap := blockMap},some (blockEnd block))

def heapFree (store : Store) (heap : Heap) (ptr : Nat) : Option (Store × Heap) := do
  let (found,blockMap) ← hashmapRemove store heap.blockMap ptr
  match found with
  | none => return (store,heap)
  | some before =>
    let block ← store before
    let freed ← block.next
    let unlinked ← store freed
    let store := store.write before {block with next := unlinked.next}
    return (store.release freed,
      {heap with head := unlinked.next.getD heap.tail, blockMap := blockMap})

def heapOffset (heap : Heap) (ptr : Nat) : Nat := sizeT ((ptr : Int) - heap.ptr)

end OpenShmem
