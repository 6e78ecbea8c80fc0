import OpenShmem.Memory.WellFormed

namespace OpenShmem
open Linked Extents

-- What a call of heap_malloc can do, said once: nothing but the malloc of the
-- descriptor, or one insertion behind the block where the search stopped.
theorem heapMalloc_cases (ran : heapMalloc libc made store heap bytes = some (store',heap',result)) :
    (findBlock (allocate libc store made bytes) heap bytes made heap.head = some none ∧
      store' = allocate libc store made bytes ∧ heap' = heap ∧ result = none) ∨
    ∃ head block filed blockMap,
      findBlock (allocate libc store made bytes) heap bytes made heap.head = some (some head) ∧
      allocate libc store made bytes head = some block ∧
      updateNext libc (allocate libc store made bytes) heap.blockMap block made = some filed ∧
      hashmapSet (insertBlock (allocate libc store made bytes) head block made bytes) filed
        (blockEnd block) head = some blockMap ∧
      store' = insertBlock (allocate libc store made bytes) head block made bytes ∧
      heap' = {heap with head := made, blockMap := blockMap} ∧ result = some (blockEnd block) := by
  obtain ⟨search,searched,ran⟩ := Option.bind_eq_some_iff.mp ran
  cases search with
  | none =>
    cases ran
    exact Or.inl ⟨searched,rfl,rfl,rfl⟩
  | some head =>
    obtain ⟨block,stored,ran⟩ := Option.bind_eq_some_iff.mp ran
    obtain ⟨filed,update,ran⟩ := Option.bind_eq_some_iff.mp ran
    obtain ⟨blockMap,set,ran⟩ := Option.bind_eq_some_iff.mp ran
    cases ran
    exact Or.inr ⟨head,block,filed,blockMap,searched,stored,update,set,rfl,rfl,rfl⟩

theorem heapMalloc_full
    (searched : findBlock (allocate libc store made bytes) heap bytes made heap.head = some none) :
    heapMalloc libc made store heap bytes = some (allocate libc store made bytes,heap,none) := by
  simp [heapMalloc,searched]

theorem heapMalloc_placed
    (searched : findBlock (allocate libc store made bytes) heap bytes made heap.head = some (some head))
    (stored : allocate libc store made bytes head = some block)
    (update : updateNext libc (allocate libc store made bytes) heap.blockMap block made = some filed)
    (set : hashmapSet (insertBlock (allocate libc store made bytes) head block made bytes) filed
      (blockEnd block) head = some blockMap) :
    heapMalloc libc made store heap bytes =
      some (insertBlock (allocate libc store made bytes) head block made bytes,
        {heap with head := made, blockMap := blockMap},some (blockEnd block)) := by
  simp [heapMalloc,searched,stored,update,set]

-- What a call of heap_free can do: nothing, or the unlinking of the successor of the
-- block that the map gave.
theorem heapFree_cases (ran : heapFree store heap ptr = some (store',heap')) :
    (hashmapRemove store heap.blockMap ptr = some (none,heap.blockMap) ∧ store' = store ∧ heap' = heap) ∨
    ∃ address blockMap block freed unlinked,
      hashmapRemove store heap.blockMap ptr = some (some address,blockMap) ∧
      store address = some block ∧ block.next = some freed ∧ store freed = some unlinked ∧
      store' = (store.write address {block with next := unlinked.next}).release freed ∧
      heap' = {heap with head := unlinked.next.getD heap.tail, blockMap := blockMap} := by
  obtain ⟨⟨found,blockMap⟩,removed,ran⟩ := Option.bind_eq_some_iff.mp ran
  cases found with
  | none =>
    cases ran
    rcases hashmapRemove_cases removed with ⟨_,_,rfl⟩ | ⟨_,_,_,same,_⟩
    · exact Or.inl ⟨removed,rfl,rfl⟩
    · cases same
  | some address =>
    obtain ⟨block,stored,ran⟩ := Option.bind_eq_some_iff.mp ran
    obtain ⟨freed,next,ran⟩ := Option.bind_eq_some_iff.mp ran
    obtain ⟨unlinked,there,ran⟩ := Option.bind_eq_some_iff.mp ran
    cases ran
    exact Or.inr ⟨address,blockMap,block,freed,unlinked,removed,stored,next,there,rfl,rfl⟩

theorem heapFree_absent (removed : hashmapRemove store heap.blockMap ptr = some (none,blockMap)) :
    heapFree store heap ptr = some (store,heap) := by
  simp [heapFree,removed]

theorem heapFree_found (removed : hashmapRemove store heap.blockMap ptr = some (some address,blockMap))
    (stored : store address = some block) (next : block.next = some freed) (there : store freed = some unlinked) :
    heapFree store heap ptr =
      some ((store.write address {block with next := unlinked.next}).release freed,
        {heap with head := unlinked.next.getD heap.tail, blockMap := blockMap}) := by
  simp [heapFree,removed,stored,next,there]

theorem allocate_other (other : c ≠ new) : allocate libc store new bytes c = store c :=
  Store.write_other store other

theorem WellFormed.frame (wf : WellFormed store heap cells) (same : ∀ c ∈ addresses cells, changed c = store c) :
    WellFormed changed heap cells :=
  ⟨wf.chain.frame fun c member => links_congr (same c member),wf.laid,wf.cursor,wf.fits⟩

theorem WellFormed.allocate (wf : WellFormed store heap cells) (libc : Libc) (bytes : Nat) (fresh : new ∉ addresses cells) :
    WellFormed (allocate libc store new bytes) heap cells :=
  wf.frame fun _ member => allocate_other fun same => fresh (same ▸ member)

theorem insertBlock_here : links (insertBlock store head block new bytes) head =
    some (⟨block.ptr,block.size⟩,some new) := by
  simp [links,insertBlock]

theorem insertBlock_new (apart : new ≠ head) : links (insertBlock store head block new bytes) new =
    some (⟨blockEnd block,bytes⟩,block.next) := by
  simp [links,insertBlock,apart]

theorem insertBlock_other (notHead : c ≠ head) (notNew : c ≠ new) :
    insertBlock store head block new bytes c = store c := by
  simp [insertBlock,notHead,notNew]

-- The new block's own entry under its successor is keyed by the successor's address.
theorem WellFormed.insert_key (wf : WellFormed store heap (before ++ (head,x) :: after)) (bytes : Nat)
    (fresh : new ∉ addresses (before ++ (head,x) :: after)) (stored : store head = some block)
    (linked : block.next = some next) :
    ∃ found, implicitKey (insertBlock store head block new bytes) new = some found := by
  have apart : new ≠ head := by
    rintro rfl
    simp [addresses] at fresh
  have located := wf.block_at
  rw [stored] at located
  have block_eq := Option.some.inj located
  cases after with
  | nil => rw [block_eq] at linked; cases linked
  | cons cell after =>
    obtain ⟨c,z⟩ := cell
    have same : c = next := by
      rw [block_eq] at linked
      exact Option.some.inj linked
    subst same
    have moved : WellFormed store heap ((before ++ [(head,x)]) ++ (c,z) :: after) := by simpa using wf
    have notHead : c ≠ head := by
      rintro rfl
      have nodup := wf.chain.nodup
      simp [addresses,List.nodup_append] at nodup
    have notNew : c ≠ new := by
      rintro rfl
      simp [addresses] at fresh
    have there : insertBlock store head block new bytes c = some ⟨z.ptr,z.size,after.head?.map Prod.fst⟩ :=
      (insertBlock_other notHead notNew).trans moved.block_at
    have here : insertBlock store head block new bytes new = some ⟨blockEnd block,bytes,some c⟩ := by
      simp [insertBlock,apart,linked]
    exact ⟨z.ptr,by simp [implicitKey,here,there]⟩

-- A block put into a gap that is large enough leaves the list well-formed, cursor included.
theorem WellFormed.insert (wf : WellFormed store heap (before ++ (head,x) :: after)) (blockMap : Hashmap)
    (room : HasRoom heap bytes x after) (fresh : new ∉ addresses (before ++ (head,x) :: after))
    (stored : store head = some block) :
    WellFormed (insertBlock store head block new bytes) {heap with head := new, blockMap := blockMap}
      (before ++ (head,x) :: (new,⟨x.ptr + x.size,bytes⟩) :: after) := by
  have located := wf.block_at
  rw [stored] at located
  have block_eq := Option.some.inj located
  have apart : new ≠ head := by
    rintro rfl
    simp [addresses] at fresh
  have limit : heapEnd {heap with head := new, blockMap := blockMap} = heapEnd heap := rfl
  refine ⟨?_,?_,by simp [addresses],wf.fits⟩
  · refine wf.chain.insert fresh (links_eq.mpr wf.block_at) ?_ ?_ ?_
    · rw [insertBlock_here,block_eq]
    · rw [insertBlock_new apart,block_eq]; rfl
    · intro c notHead notNew
      exact links_congr (insertBlock_other notHead notNew)
  · rw [limit]
    refine wf.laid.insert (Nat.le_refl _) (Nat.le_add_right _ _) ?_ ?_
    · cases after with
      | nil => exact room
      | cons cell rest =>
        have there := wf.laid.inside cell (by simp)
        simp only [HasRoom,gapEnd,cellStart,cellStop] at room there ⊢
        omega
    · rintro z rest rfl
      exact room

theorem chain_unlink (chain : Chain (links store) first (before ++ (a,x) :: (b,y) :: after))
    (stored : store a = some block) (there : store b = some unlinked) :
    Chain (links ((store.write a {block with next := unlinked.next}).release b)) first (before ++ (a,x) :: after) ∧
      unlinked.next = after.head?.map Prod.fst := by
  have located := chain_block chain
  rw [stored] at located
  have block_eq := Option.some.inj located
  have moved : Chain (links store) first ((before ++ [(a,x)]) ++ (b,y) :: after) := by simpa using chain
  have behind := chain_block moved
  rw [there] at behind
  have unlinked_eq := Option.some.inj behind
  have apart : a ≠ b := by
    rintro rfl
    have nodup := chain.nodup
    simp [addresses,List.nodup_append] at nodup
  refine ⟨chain.remove (links_eq.mpr (chain_block moved)) ?_ ?_,by rw [unlinked_eq]⟩
  · simp [links,apart,block_eq,unlinked_eq]
  · intro c notA notB
    exact links_congr (by simp [notA,notB])

-- Unlinking the successor of a block leaves the list well-formed, and the cursor on it.
theorem WellFormed.unlink (wf : WellFormed store heap (before ++ (a,x) :: (b,y) :: after))
    (stored : store a = some block) (there : store b = some unlinked) :
    WellFormed ((store.write a {block with next := unlinked.next}).release b)
      {heap with head := unlinked.next.getD heap.tail, blockMap := blockMap} (before ++ (a,x) :: after) := by
  obtain ⟨chain,next⟩ := chain_unlink wf.chain stored there
  exact ⟨chain,wf.laid.remove,by rw [next]; exact chain.next_mem,wf.fits⟩

end OpenShmem
