import OpenShmem.Memory.Coherence

namespace OpenShmem
open Linked Extents

-- The block list as far as its links go: finite from the dummy block, in address order,
-- with the cursor on one of the blocks. Whether blocks overlap or leave the region is left open.
structure Threaded (store : Store) (heap : Heap) (cells : List Cell) : Prop where
  chain : Chain (links store) (some heap.tail) cells
  ordered : cells.Pairwise fun c d => cellStart c ≤ cellStart d
  cursor : heap.head ∈ addresses cells

-- Each value of the block map is a block of the list with a successor.
def RecordsListed (store : Store) (heap : Heap) (cells : List Cell) : Prop :=
  ∀ v, heap.blockMap.Holds v → v ∈ addresses cells ∧ ∃ block next, store v = some block ∧ block.next = some next

variable {store changed : Store} {heap : Heap} {cells before after : List Cell} {a b : Nat} {x y : Extent} {block unlinked : Block}

theorem WellFormed.threaded (wf : WellFormed store heap cells) : Threaded store heap cells := by
  refine ⟨wf.chain,?_,wf.cursor⟩
  refine wf.laid.ordered.imp_of_mem fun first _ apart => ?_
  exact Nat.le_trans (wf.laid.inside _ first).2.1 apart

theorem Threaded.frame (threaded : Threaded store heap cells) (same : ∀ c ∈ addresses cells, changed c = store c) :
    Threaded changed heap cells :=
  ⟨threaded.chain.frame fun c member => links_congr (same c member),threaded.ordered,threaded.cursor⟩

theorem Threaded.allocate (threaded : Threaded store heap cells) (libc : Libc) (bytes : Nat) (fresh : new ∉ addresses cells) :
    Threaded (allocate libc store new bytes) heap cells :=
  threaded.frame fun _ member => allocate_other fun same => fresh (same ▸ member)

theorem Threaded.unlink (threaded : Threaded store heap (before ++ (a,x) :: (b,y) :: after))
    (stored : store a = some block) (there : store b = some unlinked) (blockMap : Hashmap) :
    Threaded ((store.write a {block with next := unlinked.next}).release b)
      {heap with head := unlinked.next.getD heap.tail, blockMap := blockMap} (before ++ (a,x) :: after) := by
  obtain ⟨chain,next⟩ := chain_unlink threaded.chain stored there
  exact ⟨chain,threaded.ordered.sublist sublist_behind,by rw [next]; exact chain.next_mem⟩

-- The search loop can take a round at `a`, and NEXT_BLOCK then takes it to `b`.
def Steps (store : Store) (heap : Heap) (a b : Nat) : Prop :=
  ∃ block gap, store a = some block ∧ blockGap store block heap = some gap ∧ nextBlock block heap = b

theorem steps_linked (linked : ∃ x y next, links store a = some (x,some b) ∧ links store b = some (y,next)) :
    Steps store heap a b := by
  obtain ⟨x,y,next,here,there⟩ := linked
  have measured : ∃ gap, blockGap store ⟨x.ptr,x.size,some b⟩ heap = some gap := by
    simp only [blockGap,links_eq.mp there]
    exact ⟨_,rfl⟩
  obtain ⟨gap,measured⟩ := measured
  exact ⟨_,gap,links_eq.mp here,measured,rfl⟩

theorem Steps.round (steps : Steps store heap a b) (fuel : Nat) :
    (∃ found, findBlock store heap bytes (fuel+1) a = some found) ∨
      (b ≠ heap.head ∧ findBlock store heap bytes (fuel+1) a = findBlock store heap bytes fuel b) := by
  obtain ⟨block,gap,stored,measured,rfl⟩ := steps
  simp only [findBlock,stored,measured,Option.bind_eq_bind,Option.bind_some]
  by_cases small : gap < bytes
  · rw [if_pos small]
    by_cases back : nextBlock block heap = heap.head
    · rw [if_pos back]
      exact Or.inl ⟨none,rfl⟩
    · rw [if_neg back]
      exact Or.inr ⟨back,rfl⟩
  · rw [if_neg small]
    exact Or.inl ⟨some a,rfl⟩

-- The route of the search: from the cursor to the end of the list, then from the dummy
-- block up to the cursor again. The step from the last block of the list is the one that wraps.
theorem Threaded.route (threaded : Threaded store heap (before ++ (heap.head,y) :: after)) :
    (heap.head :: (addresses after ++ addresses before) ++ [heap.head]).IsChain (Steps store heap) := by
  have chain := threaded.chain
  have entered := chain.enter
  have whole := chain.linked
  rw [addresses_append,addresses_cons,List.isChain_split] at whole
  have parts : heap.head :: (addresses after ++ addresses before) ++ [heap.head] =
      addresses ((heap.head,y) :: after) ++ (addresses before ++ [heap.head]) := by simp
  rw [parts]
  refine List.isChain_append.mpr ⟨entered.linked.imp fun _ _ => steps_linked,whole.1.imp fun _ _ => steps_linked,?_⟩
  intro a last b first
  obtain ⟨x,found⟩ := entered.last_none last
  have start : b = heap.tail := by
    cases before with
    | nil =>
      cases first
      exact (Option.some.inj chain.head.1).symm
    | cons cell before =>
      cases first
      exact (Option.some.inj chain.head.1).symm
  exact ⟨_,_,links_eq.mp found,rfl,start.symm⟩

theorem Threaded.find_ends (threaded : Threaded store heap cells) (bytes : Nat) (enough : cells.length ≤ fuel) :
    ∃ found, findBlock store heap bytes fuel heap.head = some found := by
  obtain ⟨before,y,after,rfl⟩ := mem_split threaded.cursor
  refine search_ends (fun _ _ steps fuel => steps.round fuel) threaded.route ?_
  simp only [addresses,List.length_append,List.length_cons,List.length_map] at enough ⊢
  omega

-- The cursor is moved off the freed block before its descriptor is released: to the block
-- behind it, or to the dummy block, and both are on the list that is left.
theorem heapFree_cursor (threaded : Threaded store heap cells) (listed : RecordsListed store heap cells) (ptr : Nat) :
    ∃ store' heap' cells', heapFree store heap ptr = some (store',heap') ∧ Threaded store' heap' cells' ∧ cells'.Sublist cells ∧
      (WellFormed store heap cells → WellFormed store' heap' cells') ∧ ∀ libc new bytes fuel, new ∉ addresses cells' → cells'.length ≤ fuel →
        ∃ found, findBlock (allocate libc store' new bytes) heap' bytes fuel heap'.head = some found := by
  have ends : ∀ {store' heap' cells'}, Threaded store' heap' cells' → ∀ libc new bytes fuel, new ∉ addresses cells' →
      cells'.length ≤ fuel → ∃ found, findBlock (allocate libc store' new bytes) heap' bytes fuel heap'.head = some found :=
    fun next libc _ bytes _ fresh enough => (next.allocate libc bytes fresh).find_ends bytes enough
  have stored : Stored store (getNode heap.blockMap ptr) := by
    intro node member
    obtain ⟨_,block,_,here,_⟩ := listed node.value ⟨_,node,member,rfl⟩
    exact ⟨block,here⟩
  rcases removeLoop_spec stored ptr with ⟨_,loop⟩ | ⟨front,node,back,split,_,_,loop⟩
  · exact ⟨store,heap,cells,heapFree_absent (hashmapRemove_absent loop),threaded,List.Sublist.refl _,id,ends threaded⟩
  · have present : node ∈ getNode heap.blockMap ptr := by rw [split]; simp
    obtain ⟨member,block,b,here,next⟩ := listed node.value ⟨_,node,present,rfl⟩
    obtain ⟨before,x,after,rfl⟩ := mem_split member
    have located := chain_block threaded.chain
    rw [here] at located
    cases located
    cases after with
    | nil => cases next
    | cons cell after =>
      obtain ⟨c,y⟩ := cell
      cases next
      have moved : Chain (links store) (some heap.tail) ((before ++ [(node.value,x)]) ++ (c,y) :: after) := by
        simpa using threaded.chain
      have there := chain_block moved
      have left := threaded.unlink here there (heap.blockMap.put (hashFunc ptr heap.blockMap.nBuckets) (front ++ back))
      exact ⟨_,_,_,heapFree_found (hashmapRemove_hit loop) here rfl there,left,sublist_behind,fun wf => wf.unlink here there,ends left⟩

theorem twoBlocks_listed : RecordsListed twoBlocks twoBlocksHeap [(0,⟨4096,0⟩),(1,⟨4096,8⟩),(2,⟨4104,8⟩)] := by
  intro v ⟨index,node,member,value⟩
  subst value
  rcases twoBlocks_bucket index with ⟨rfl,listed⟩ | ⟨rfl,listed⟩ | listed
  · rw [twoBlocksHeap,listed] at member
    cases List.mem_singleton.mp member
    exact ⟨by simp,_,2,rfl,rfl⟩
  · rw [twoBlocksHeap,listed] at member
    cases List.mem_singleton.mp member
    exact ⟨by simp,_,1,rfl,rfl⟩
  · rw [twoBlocksHeap,listed] at member
    cases member

theorem heapFree_cursor_first : ∃ store' heap' cells', heapFree twoBlocks twoBlocksHeap 4096 = some (store',heap') ∧
    Threaded store' heap' cells' ∧ cells'.Sublist [(0,⟨4096,0⟩),(1,⟨4096,8⟩),(2,⟨4104,8⟩)] ∧
      (WellFormed twoBlocks twoBlocksHeap [(0,⟨4096,0⟩),(1,⟨4096,8⟩),(2,⟨4104,8⟩)] → WellFormed store' heap' cells') ∧
      ∀ libc new bytes fuel, new ∉ addresses cells' → cells'.length ≤ fuel →
        ∃ found, findBlock (allocate libc store' new bytes) heap' bytes fuel heap'.head = some found :=
  heapFree_cursor twoBlocks_wf.threaded twoBlocks_listed 4096

end OpenShmem
