import OpenShmem.Memory.Session

namespace OpenShmem
open Linked

-- The two hashmap_set calls of a heap_malloc that inserts behind `head`, when neither faults.
def MapUpdates (libc : Libc) (made : Nat) (store : Store) (heap : Heap) (bytes head : Nat) (blockMap : Hashmap) : Prop :=
  ∃ block filed, allocate libc store made bytes head = some block ∧
    updateNext libc (allocate libc store made bytes) heap.blockMap block made = some filed ∧
    hashmapSet (insertBlock (allocate libc store made bytes) head block made bytes) filed (blockEnd block) head = some blockMap

-- What heap_malloc of `bytes` is to do on a heap with this block list.
structure NextFit (libc : Libc) (made : Nat) (store : Store) (heap : Heap) (cells : List Cell) (bytes : Nat) : Prop where
  null : (∃ store', heapMalloc libc made store heap bytes = some (store',heap,none)) ↔
    ∀ front a x back, cells = front ++ (a,x) :: back → ¬ HasRoom heap bytes x back
  unchanged : ∀ store' heap', heapMalloc libc made store heap bytes = some (store',heap',none) →
    heap' = heap ∧ WellFormed store' heap cells ∧ ∀ c, c ≠ made → store' c = store c
  placed : ∀ before y after, cells = before ++ (heap.head,y) :: after →
    (∃ front a x back, cells = front ++ (a,x) :: back ∧ HasRoom heap bytes x back) →
    ∃ front a x back, cells = front ++ (a,x) :: back ∧
      firstFit bytes (searchOrder heap before (heap.head,y) after) = some a ∧
      ∀ blockMap, MapUpdates libc made store heap bytes a blockMap → ∃ store',
        heapMalloc libc made store heap bytes =
          some (store',{heap with head := made, blockMap := blockMap},some (x.ptr + x.size)) ∧
        WellFormed store' {heap with head := made, blockMap := blockMap}
          (front ++ (a,x) :: (made,⟨x.ptr + x.size,bytes⟩) :: back)

theorem mem_gaps {gap : Nat × Nat} {segment : List Cell} : gap ∈ gaps heap rest segment ↔ ∃ front a x back,
    segment = front ++ (a,x) :: back ∧ gap = (a,gapEnd heap (back ++ rest) - (x.ptr + x.size)) := by
  induction segment with
  | nil => simp [gaps]
  | cons cell segment ih =>
    obtain ⟨b,y⟩ := cell
    rw [gaps,List.mem_cons,ih]
    constructor
    · intro found
      rcases found with here | ⟨front,a,x,back,rfl,same⟩
      · exact ⟨[],b,y,segment,rfl,here⟩
      · exact ⟨(b,y) :: front,a,x,back,rfl,same⟩
    · intro found
      obtain ⟨front,a,x,back,split,same⟩ := found
      cases front with
      | nil =>
        cases split
        exact Or.inl same
      | cons first front =>
        obtain ⟨_,rfl⟩ := List.cons.inj split
        exact Or.inr ⟨front,a,x,back,rfl,same⟩

-- The cyclic order visits the gap behind every block of the list, and no other one.
theorem mem_searchOrder {gap : Nat × Nat} : gap ∈ searchOrder heap before (head,y) after ↔ ∃ front a x back,
    before ++ (head,y) :: after = front ++ (a,x) :: back ∧ gap = (a,gapEnd heap back - (x.ptr + x.size)) := by
  unfold searchOrder
  rw [List.mem_append,mem_gaps,mem_gaps]
  constructor
  · intro found
    rcases found with ⟨front,a,x,back,split,same⟩ | ⟨front,a,x,back,split,same⟩
    · exact ⟨before ++ front,a,x,back,by rw [split,List.append_assoc],by simpa using same⟩
    · exact ⟨front,a,x,back ++ (head,y) :: after,by simp [split],same⟩
  · intro ⟨front,a,x,back,split,same⟩
    rcases List.append_eq_append_iff.mp split with ⟨between,first,second⟩ | ⟨between,first,second⟩
    · exact Or.inl ⟨between,a,x,back,second,by simpa using same⟩
    · cases between with
      | nil => exact Or.inl ⟨[],a,x,back,second.symm,by simpa using same⟩
      | cons cell between =>
        obtain ⟨rfl,rfl⟩ := List.cons.inj second
        exact Or.inr ⟨front,a,x,between,first,same⟩

theorem WellFormed.firstFit_iff (wf : WellFormed store heap (before ++ (head,y) :: after)) :
    firstFit bytes (searchOrder heap before (head,y) after) = none ↔
      ∀ front a x back, before ++ (head,y) :: after = front ++ (a,x) :: back → ¬ HasRoom heap bytes x back := by
  unfold firstFit
  rw [Option.map_eq_none_iff,List.find?_eq_none]
  simp only [decide_eq_true_eq]
  constructor
  · intro none front a x back split room
    have here : WellFormed store heap (front ++ (a,x) :: back) := split ▸ wf
    exact none _ (mem_searchOrder.mpr ⟨front,a,x,back,split,rfl⟩) (here.room_iff.mp room)
  · intro full gap member fits
    obtain ⟨front,a,x,back,split,rfl⟩ := mem_searchOrder.mp member
    have here : WellFormed store heap (front ++ (a,x) :: back) := split ▸ wf
    exact full front a x back split (here.room_iff.mpr fits)

-- The search behind a fresh descriptor: it ends, at the next fit.
theorem WellFormed.search_eq (wf : WellFormed store heap cells) (libc : Libc) (known : ∀ a ∈ addresses cells, a < made)
    (bytes : Nat) (split : cells = before ++ (heap.head,y) :: after) :
    findBlock (OpenShmem.allocate libc store made bytes) heap bytes made heap.head =
      some (firstFit bytes (searchOrder heap before (heap.head,y) after)) := by
  have fresh : made ∉ addresses cells := fun member => Nat.lt_irrefl _ (known made member)
  have allocated := wf.allocate libc bytes fresh
  subst split
  have bound := length_le_made allocated.chain.nodup known
  simp only [List.length_append,List.length_cons] at bound
  exact allocated.find_eq bytes (by omega)

-- On every well-formed heap whose descriptors are among the ones made so far, the search
-- ends, fails only when no gap is large enough, and else stops at the next fit.
theorem heapMalloc_nextFit (libc : Libc) (wf : WellFormed store heap cells) (known : ∀ a ∈ addresses cells, a < made)
    (bytes : Nat) : NextFit libc made store heap cells bytes := by
  have fresh : made ∉ addresses cells := fun member => Nat.lt_irrefl _ (known made member)
  have allocated := wf.allocate libc bytes fresh
  obtain ⟨before,y,after,split⟩ := mem_split wf.cursor
  have search := wf.search_eq libc known bytes split
  have decides : firstFit bytes _ = none ↔ _ := (split ▸ wf).firstFit_iff
  refine ⟨?_,?_,?_⟩
  · rw [split,← decides]
    constructor
    · intro ⟨store',returned⟩
      rcases heapMalloc_cases returned with ⟨found,_⟩ | ⟨_,_,_,_,_,_,_,_,_,_,same⟩
      · rw [search] at found
        exact Option.some.inj found
      · cases same
    · intro none
      rw [none] at search
      exact ⟨_,heapMalloc_full search⟩
  · intro store' heap' returned
    rcases heapMalloc_cases returned with ⟨_,rfl,rfl,_⟩ | ⟨_,_,_,_,_,_,_,_,_,_,same⟩
    · exact ⟨rfl,allocated,fun c other => allocate_other other⟩
    · cases same
  · intro before y after split ⟨front,a,x,back,split',room⟩
    have search := wf.search_eq libc known bytes split
    cases chosen : firstFit bytes (searchOrder heap before (heap.head,y) after) with
    | none => exact False.elim ((split ▸ wf).firstFit_iff.mp chosen front a x back (split ▸ split') room)
    | some b =>
      rw [chosen] at search
      obtain ⟨front,z,back,rfl,room⟩ := findBlock_sound allocated allocated.cursor search
      refine ⟨front,b,z,back,rfl,rfl,?_⟩
      intro blockMap ⟨block,filed,stored,update,set⟩
      have located := allocated.block_at
      rw [stored] at located
      have block_eq := Option.some.inj located
      have placed : blockEnd block = z.ptr + z.size := by rw [block_eq]; rfl
      have returned := heapMalloc_placed search stored update set
      rw [placed] at returned
      exact ⟨_,returned,allocated.insert blockMap room fresh stored⟩

-- Three blocks of 16, 24 and 24 bytes in 72, the first one freed again: the cursor is on the
-- second, and 12 bytes fit only in front of it.
def lowGapLibc : Libc := ⟨fun n => 65536 + 32 * n,fun _ => ⟨7,7,none⟩⟩

def lowGap : Session := ((sessions lowGapLibc).run (Session.start lowGapLibc ⟨4096,72,by decide⟩)
  [.malloc 16,.malloc 24,.malloc 24,.free 4096]).get (by decide +kernel)

def lowGapCells : List Cell := [(0,⟨4096,0⟩),(2,⟨4112,24⟩),(3,⟨4136,24⟩)]

theorem lowGap_wf : WellFormed lowGap.store lowGap.heap lowGapCells := by
  have first : links lowGap.store 0 = some (⟨4096,0⟩,some 2) := by decide +kernel
  have second : links lowGap.store 2 = some (⟨4112,24⟩,some 3) := by decide +kernel
  have third : links lowGap.store 3 = some (⟨4136,24⟩,none) := by decide +kernel
  have tail : lowGap.heap.tail = 0 := by decide +kernel
  refine ⟨?_,⟨by decide +kernel,by decide +kernel⟩,by decide +kernel,by decide +kernel⟩
  rw [tail]
  exact .cons first (.cons second (.cons third .nil))

-- The search passes the end of the list, and the block is inserted behind the dummy block.
theorem heapMalloc_nextFit_wraps : NextFit lowGapLibc 4 lowGap.store lowGap.heap lowGapCells 12 ∧
    ∃ store heap, heapMalloc lowGapLibc 4 lowGap.store lowGap.heap 12 = some (store,heap,some 4096) ∧
      WellFormed store heap [(0,⟨4096,0⟩),(4,⟨4096,12⟩),(2,⟨4112,24⟩),(3,⟨4136,24⟩)] := by
  have fit : NextFit lowGapLibc 4 lowGap.store lowGap.heap lowGapCells 12 :=
    heapMalloc_nextFit lowGapLibc lowGap_wf (by decide) 12
  have cursor : lowGap.heap.head = 2 := by decide +kernel
  have room : HasRoom lowGap.heap 12 ⟨4096,0⟩ [(2,⟨4112,24⟩),(3,⟨4136,24⟩)] := by
    unfold HasRoom
    decide +kernel
  obtain ⟨front,a,x,back,split,first,call⟩ := fit.placed [(0,⟨4096,0⟩)] ⟨4112,24⟩ [(3,⟨4136,24⟩)] (by rw [cursor]; rfl)
    ⟨[],0,⟨4096,0⟩,_,rfl,room⟩
  have dummy : firstFit 12 (searchOrder lowGap.heap [(0,⟨4096,0⟩)] (lowGap.heap.head,⟨4112,24⟩) [(3,⟨4136,24⟩)]) = some 0 := by
    decide +kernel
  obtain rfl : 0 = a := Option.some.inj (dummy.symm.trans first)
  -- Neither map update faults.
  have stored : allocate lowGapLibc lowGap.store 4 12 0 = some ⟨4096,0,some 2⟩ := by decide +kernel
  have updates : ((updateNext lowGapLibc (allocate lowGapLibc lowGap.store 4 12) lowGap.heap.blockMap ⟨4096,0,some 2⟩ 4).bind
      fun filed => hashmapSet (insertBlock (allocate lowGapLibc lowGap.store 4 12) 0 ⟨4096,0,some 2⟩ 4 12) filed 4096 0).isSome := by
    decide +kernel
  obtain ⟨blockMap,both⟩ := Option.isSome_iff_exists.mp updates
  obtain ⟨filed,update,set⟩ := Option.bind_eq_some_iff.mp both
  obtain ⟨store,placed,wf⟩ := call blockMap ⟨_,filed,stored,update,set⟩
  have here : front = [] ∧ x = ⟨4096,0⟩ ∧ back = [(2,⟨4112,24⟩),(3,⟨4136,24⟩)] := by
    cases front with
    | nil =>
      cases split
      exact ⟨rfl,rfl,rfl⟩
    | cons cell front =>
      obtain ⟨_,rest⟩ := List.cons.inj split
      have listed : (0,x) ∈ ([(2,⟨4112,24⟩),(3,⟨4136,24⟩)] : List Cell) := by
        rw [rest]
        simp
      simp at listed
  obtain ⟨rfl,rfl,rfl⟩ := here
  exact ⟨fit,store,_,placed,wf⟩

end OpenShmem
