import OpenShmem.Library.Extents
import OpenShmem.Memory.Heap
import Mathlib.Data.Nat.Basic

namespace OpenShmem
open Linked Extents

structure Extent where
  ptr : Nat
  size : Nat
deriving DecidableEq, Repr

-- The store as a linked structure: the extent a descriptor describes, and its successor.
def links (store : Store) (address : Nat) : Option (Extent × Option Nat) :=
  (store address).map fun block => (⟨block.ptr,block.size⟩,block.next)

theorem links_eq : links store a = some (x,next) ↔ store a = some ⟨x.ptr,x.size,next⟩ := by
  unfold links
  constructor
  · intro found
    obtain ⟨block,stored,same⟩ := Option.map_eq_some_iff.mp found
    cases same
    exact stored
  · intro stored
    simp [stored]

theorem links_congr (same : changed a = store a) : links changed a = links store a := by
  simp only [links,same]

abbrev Cell := Nat × Extent
def cellStart (cell : Cell) : Nat := cell.2.ptr
def cellStop (cell : Cell) : Nat := cell.2.ptr + cell.2.size

-- The block list as heap_malloc walks it: finite from the dummy block, in address order
-- without overlap, inside the region's end, with the cursor on one of the blocks.
structure WellFormed (store : Store) (heap : Heap) (cells : List Cell) : Prop where
  chain : Chain (links store) (some heap.tail) cells
  laid : Laid cellStart cellStop 0 (heapEnd heap) cells
  cursor : heap.head ∈ addresses cells
  fits : heapEnd heap < 2^64

-- Where the gap behind a block ends.
def gapEnd (heap : Heap) : List Cell → Nat
  | [] => heapEnd heap
  | (_,next) :: _ => next.ptr

def HasRoom (heap : Heap) (bytes : Nat) (x : Extent) (after : List Cell) : Prop :=
  x.ptr + x.size + bytes ≤ gapEnd heap after

theorem sizeT_sub {low high : Nat} (ordered : low ≤ high) (small : high < 2^64) :
    sizeT ((high : Int) - low) = high - low := by
  unfold sizeT
  omega

theorem WellFormed.gap_order (wf : WellFormed store heap (before ++ (a,x) :: after)) :
    x.ptr + x.size ≤ gapEnd heap after ∧ gapEnd heap after < 2^64 := by
  have fits := wf.fits
  have here := wf.laid.inside (a,x) (by simp)
  cases after with
  | nil => exact ⟨here.2.2,wf.fits⟩
  | cons cell rest =>
    obtain ⟨c,z⟩ := cell
    have ordered := (List.pairwise_append.mp wf.laid.ordered).2.1
    have first := (List.pairwise_cons.mp ordered).1 (c,z) List.mem_cons_self
    have there := wf.laid.inside (c,z) (by simp)
    simp only [cellStart,cellStop] at first there
    simp only [gapEnd]
    exact ⟨first,by omega⟩

theorem chain_block (chain : Chain (links store) first (before ++ (a,x) :: after)) :
    store a = some ⟨x.ptr,x.size,after.head?.map Prod.fst⟩ := by
  obtain ⟨next,found,tail⟩ := chain.at
  rw [links_eq] at found
  cases tail with
  | nil => exact found
  | cons _ _ => exact found

theorem WellFormed.block_at (wf : WellFormed store heap (before ++ (a,x) :: after)) :
    store a = some ⟨x.ptr,x.size,after.head?.map Prod.fst⟩ :=
  chain_block wf.chain

-- BLOCK_GAP does not wrap on a well-formed heap.
theorem WellFormed.gap_eq (wf : WellFormed store heap (before ++ (a,x) :: after)) :
    blockGap store ⟨x.ptr,x.size,after.head?.map Prod.fst⟩ heap =
      some (gapEnd heap after - (x.ptr + x.size)) := by
  obtain ⟨ordered,small⟩ := wf.gap_order
  cases after with
  | nil =>
    have gap := sizeT_sub ordered small
    simpa [blockGap,blockEnd,gapEnd] using gap
  | cons cell rest =>
    obtain ⟨c,z⟩ := cell
    have moved : WellFormed store heap ((before ++ [(a,x)]) ++ (c,z) :: rest) := by simpa using wf
    have gap := sizeT_sub ordered small
    simpa [blockGap,blockEnd,gapEnd,moved.block_at] using gap

-- One round of the search loop at a block of the list.
theorem WellFormed.find_step (wf : WellFormed store heap (before ++ (a,x) :: after)) :
    findBlock store heap bytes (fuel+1) a =
      if bytes ≤ gapEnd heap after - (x.ptr + x.size) then some (some a)
      else if (after.head?.map Prod.fst).getD heap.tail = heap.head then some none
      else findBlock store heap bytes fuel ((after.head?.map Prod.fst).getD heap.tail) := by
  simp only [findBlock,wf.block_at,Option.bind_eq_bind,Option.bind_some,wf.gap_eq,nextBlock]
  by_cases fits : bytes ≤ gapEnd heap after - (x.ptr + x.size)
  · rw [if_pos fits,if_neg (Nat.not_lt.mpr fits)]
  · rw [if_neg fits,if_pos (Nat.lt_of_not_le fits)]
    rfl

theorem WellFormed.room_iff (wf : WellFormed store heap (before ++ (a,x) :: after)) :
    HasRoom heap bytes x after ↔ bytes ≤ gapEnd heap after - (x.ptr + x.size) := by
  obtain ⟨ordered,_⟩ := wf.gap_order
  unfold HasRoom
  omega

theorem WellFormed.next_mem (wf : WellFormed store heap (before ++ (a,x) :: after)) :
    (after.head?.map Prod.fst).getD heap.tail ∈ addresses (before ++ (a,x) :: after) :=
  wf.chain.next_mem

theorem findBlock_sound (wf : WellFormed store heap cells) (here : head ∈ addresses cells)
    (found : findBlock store heap bytes fuel head = some (some a)) :
    ∃ before x after, cells = before ++ (a,x) :: after ∧ HasRoom heap bytes x after := by
  induction fuel generalizing head with
  | zero => cases found
  | succ fuel ih =>
    obtain ⟨before,x,after,rfl⟩ := mem_split here
    rw [wf.find_step] at found
    split at found
    · rename_i room
      cases found
      exact ⟨before,x,after,rfl,wf.room_iff.mpr room⟩
    · split at found
      · cases found
      · exact ih wf.next_mem found

-- The gaps behind the blocks of a segment of the list, with `rest` behind the segment.
def gaps (heap : Heap) (rest : List Cell) : List Cell → List (Nat × Nat)
  | [] => []
  | (a,x) :: segment => (a,gapEnd heap (segment ++ rest) - (x.ptr + x.size)) :: gaps heap rest segment

-- The cyclic order of next-fit: from the cursor to the end of the list, then from the
-- dummy block up to the cursor.
def searchOrder (heap : Heap) (before : List Cell) (cursor : Cell) (after : List Cell) : List (Nat × Nat) :=
  gaps heap [] (cursor :: after) ++ gaps heap (cursor :: after) before

def firstFit (bytes : Nat) (order : List (Nat × Nat)) : Option Nat :=
  (order.find? fun gap => bytes ≤ gap.2).map Prod.fst

theorem firstFit_cons : firstFit bytes ((a,gap) :: order) = if bytes ≤ gap then some a else firstFit bytes order := by
  by_cases fits : bytes ≤ gap <;> simp [firstFit,fits]

-- Behind the wrap: the loop goes on up to the block before the cursor.
theorem WellFormed.find_before (wf : WellFormed store heap cells)
    (split : cells = before ++ (a,x) :: between ++ (heap.head,y) :: post) (enough : between.length < fuel) :
    findBlock store heap bytes fuel a =
      some (firstFit bytes (gaps heap ((heap.head,y) :: post) ((a,x) :: between))) := by
  obtain ⟨fuel,rfl⟩ : ∃ rest, fuel = rest + 1 := ⟨fuel - 1,by omega⟩
  induction between generalizing before a x fuel with
  | nil =>
    subst split
    have here : WellFormed store heap (before ++ (a,x) :: (heap.head,y) :: post) := by simpa using wf
    rw [here.find_step]
    simp only [gaps,List.nil_append,firstFit_cons]
    by_cases fits : bytes ≤ gapEnd heap ((heap.head,y) :: post) - (x.ptr + x.size) <;> simp [fits,firstFit]
  | cons cell between ih =>
    obtain ⟨c,z⟩ := cell
    simp only [List.length_cons] at enough
    obtain ⟨fuel,rfl⟩ : ∃ rest, fuel = rest + 1 := ⟨fuel - 1,by omega⟩
    have split' : cells = (before ++ [(a,x)]) ++ (c,z) :: between ++ (heap.head,y) :: post := by simpa using split
    have later := ih split' fuel (by omega)
    subst split
    have here : WellFormed store heap (before ++ (a,x) :: ((c,z) :: between ++ (heap.head,y) :: post)) := by
      simpa using wf
    have notCursor : c ≠ heap.head := by
      rintro rfl
      have nodup := wf.chain.nodup
      simp [addresses,List.nodup_append] at nodup
    rw [here.find_step,gaps,firstFit_cons]
    simp only [List.cons_append,List.head?_cons,Option.map_some,Option.getD_some,if_neg notCursor,later]
    by_cases fits : bytes ≤ gapEnd heap ((c,z) :: (between ++ (heap.head,y) :: post)) - (x.ptr + x.size) <;>
      simp [fits]

-- From the cursor on: at the end of the list the loop wraps to the dummy block.
theorem WellFormed.find_after (wf : WellFormed store heap cells)
    (split : cells = before ++ (heap.head,y) :: post) (tail : (heap.head,y) :: post = between ++ (a,x) :: after)
    (enough : after.length + before.length < fuel) :
    findBlock store heap bytes fuel a =
      some (firstFit bytes (gaps heap [] ((a,x) :: after) ++ gaps heap ((heap.head,y) :: post) before)) := by
  obtain ⟨fuel,rfl⟩ : ∃ rest, fuel = rest + 1 := ⟨fuel - 1,by omega⟩
  induction after generalizing between a x fuel with
  | nil =>
    have here : WellFormed store heap ((before ++ between) ++ (a,x) :: []) := by
      rw [List.append_assoc,← tail,← split]; exact wf
    rw [here.find_step]
    simp only [gaps,List.nil_append,List.cons_append,firstFit_cons,List.head?_nil,Option.map_none,Option.getD_none]
    by_cases fits : bytes ≤ gapEnd heap [] - (x.ptr + x.size)
    · simp [fits]
    simp only [if_neg fits]
    cases before with
    | nil =>
      subst split
      have first := wf.chain.head.1
      simp only [Option.some.injEq] at first
      simp [first,firstFit,gaps]
    | cons cell before =>
      obtain ⟨c,z⟩ := cell
      subst split
      have first := wf.chain.head.1
      simp only [Option.some.injEq] at first
      have notCursor : heap.tail ≠ heap.head := by
        intro same
        have nodup := wf.chain.nodup
        rw [same] at first
        simp [addresses,first] at nodup
      simp only [List.length_cons,List.length_nil] at enough
      refine (if_neg notCursor).trans ?_
      rw [first]
      have front : (c,z) :: before ++ (heap.head,y) :: post = [] ++ (c,z) :: before ++ (heap.head,y) :: post := rfl
      exact wf.find_before front (by omega)
  | cons cell after ih =>
    obtain ⟨c,z⟩ := cell
    simp only [List.length_cons] at enough
    obtain ⟨fuel,rfl⟩ : ∃ rest, fuel = rest + 1 := ⟨fuel - 1,by omega⟩
    have tail' : (heap.head,y) :: post = (between ++ [(a,x)]) ++ (c,z) :: after := by simpa using tail
    have later := ih tail' fuel (by omega)
    have here : WellFormed store heap ((before ++ between) ++ (a,x) :: (c,z) :: after) := by
      rw [List.append_assoc,← tail,← split]; exact wf
    have notCursor : c ≠ heap.head := by
      rintro rfl
      have nodup := wf.chain.nodup
      rw [split,tail] at nodup
      cases between with
      | nil =>
        obtain ⟨same,_⟩ := List.cons.inj tail
        simp [addresses,List.nodup_append,← same] at nodup
      | cons first between =>
        obtain ⟨same,_⟩ := List.cons.inj tail
        simp [addresses,List.nodup_append,← same] at nodup
    rw [here.find_step,gaps,List.cons_append,firstFit_cons]
    simp only [List.head?_cons,Option.map_some,Option.getD_some,if_neg notCursor,later,List.append_nil]
    by_cases fits : bytes ≤ gapEnd heap ((c,z) :: after) - (x.ptr + x.size) <;> simp [fits]

-- The search is next-fit, and it ends after at most as many rounds as the list has blocks.
theorem WellFormed.find_eq (wf : WellFormed store heap (before ++ (heap.head,y) :: after)) (bytes : Nat)
    (enough : after.length + before.length < fuel) :
    findBlock store heap bytes fuel heap.head =
      some (firstFit bytes (searchOrder heap before (heap.head,y) after)) :=
  wf.find_after rfl (List.nil_append _).symm enough

end OpenShmem
