import OpenShmem.Library.Machine
import OpenShmem.Memory.Operations
import Mathlib.Data.List.Perm.Subperm

namespace OpenShmem
open Linked Extents

-- The memory given to heap_init: one C object, so the address behind it exists too.
structure Region where
  base : Nat
  size : Nat
  fits : base + size < 2^64

-- A heap with its users' ledger: how many descriptors were made, the allocations that
-- were returned and not passed to heap_free since, and every address (or NULL) that
-- heap_malloc returned, in order.
structure Session where
  store : Store
  heap : Heap
  made : Nat
  live : List (Nat × Nat)
  results : List (Option Nat)

inductive Call where
  | malloc (bytes : Nat)
  | free (ptr : Nat)
deriving DecidableEq, Repr

def Session.start (libc : Libc) (region : Region) : Session :=
  let (store,heap) := heapInit libc region.base region.size
  ⟨store,heap,1,[],[]⟩

def Session.call (libc : Libc) (s : Session) : Call → Option Session
  | .malloc bytes => do
    let (store,heap,result) ← heapMalloc libc s.made s.store s.heap bytes
    return ⟨store,heap,s.made + 1,s.live ++ (result.map (·,bytes)).toList,s.results ++ [result]⟩
  | .free ptr => do
    let (store,heap) ← heapFree s.store s.heap ptr
    return {s with store := store, heap := heap, live := s.live.filter (·.1 ≠ ptr)}

theorem session_malloc (ran : heapMalloc libc s.made s.store s.heap bytes = some (store,heap,result)) :
    Session.call libc s (.malloc bytes) = some ⟨store,heap,s.made + 1,s.live ++ (result.map (·,bytes)).toList,s.results ++ [result]⟩ := by
  simp [Session.call,ran]

theorem session_free (ran : heapFree s.store s.heap ptr = some (store,heap)) :
    Session.call libc s (.free ptr) = some {s with store := store, heap := heap, live := s.live.filter (·.1 ≠ ptr)} := by
  simp [Session.call,ran]

def sessions (libc : Libc) : Guarded.Machine Session Call := ⟨Session.call libc⟩

-- What the block list and the map keep under every call, whatever node a free picks.
structure Layout (s : Session) (cells : List Cell) : Prop where
  wf : WellFormed s.store s.heap cells
  above : ∀ cell ∈ cells, s.heap.ptr ≤ cellStart cell
  made : ∀ a ∈ addresses cells, a < s.made
  known : ∀ v, s.heap.blockMap.Holds v → v < s.made ∧ (v ∈ addresses cells ∨ s.store v = none)

theorem start_layout (region : Region) (clean : (libc.prior 0).next = none) :
    Layout (Session.start libc region) [(0,⟨region.base,0⟩)] := by
  have stored : (Session.start libc region).store 0 = some ⟨region.base,0,none⟩ := by
    simp [Session.start,heapInit,clean]
  refine ⟨⟨.cons (links_eq.mpr stored) .nil,?_,List.mem_singleton.mpr rfl,region.fits⟩,?_,?_,?_⟩
  · exact Laid.singleton (Nat.zero_le _) (Nat.le_refl _) (Nat.le_add_right _ _)
  · intro cell member
    cases List.mem_singleton.mp member
    exact Nat.le_refl _
  · intro a member
    cases List.mem_singleton.mp member
    exact Nat.one_pos
  · rintro v ⟨index,node,member,_⟩
    cases member

-- The list never holds more blocks than descriptors were made.
theorem length_le_made (once : (addresses cells).Nodup) (known : ∀ a ∈ addresses cells, a < made) :
    cells.length ≤ made := by
  have sub : (addresses cells).Subperm (List.range made) := List.subperm_of_subset once
    fun a member => List.mem_range.mpr (known a member)
  simpa [addresses] using sub.length_le

theorem Layout.length_le (layout : Layout s cells) : cells.length ≤ s.made :=
  length_le_made layout.wf.chain.nodup layout.made

theorem Layout.unlisted (layout : Layout s cells) : s.made ∉ addresses cells :=
  fun member => Nat.lt_irrefl _ (layout.made _ member)

theorem updateNext_holds (ran : updateNext libc store map block new = some filed) (holds : filed.Holds v) :
    v = new ∨ map.Holds v := by
  unfold updateNext at ran
  split at ran
  · cases ran; exact Or.inr holds
  · exact hashmapSet_holds ran holds

theorem malloc_found (layout : Layout s cells) (ran : s.call libc (.malloc bytes) = some t) :
    (findBlock (allocate libc s.store s.made bytes) s.heap bytes s.made s.heap.head = some none ∧
      t.live = s.live ∧ t.results = s.results ++ [none] ∧ Layout t cells) ∨
    ∃ before head x after, cells = before ++ (head,x) :: after ∧
      findBlock (allocate libc s.store s.made bytes) s.heap bytes s.made s.heap.head = some (some head) ∧
      t.live = s.live ++ [(x.ptr + x.size,bytes)] ∧ t.results = s.results ++ [some (x.ptr + x.size)] ∧
      Layout t (before ++ (head,x) :: (s.made,⟨x.ptr + x.size,bytes⟩) :: after) := by
  obtain ⟨⟨store,heap,result⟩,malloced,same⟩ := Option.bind_eq_some_iff.mp ran
  cases same
  have allocated := layout.wf.allocate libc bytes layout.unlisted
  rcases heapMalloc_cases malloced with ⟨searched,rfl,rfl,rfl⟩ |
    ⟨head,block,filed,blockMap,searched,stored,update,set,rfl,rfl,rfl⟩
  · refine Or.inl ⟨searched,by simp,rfl,allocated,layout.above,?_,?_⟩
    · intro a member
      exact Nat.lt_succ_of_lt (layout.made a member)
    · intro v holds
      obtain ⟨old,place⟩ := layout.known v holds
      exact ⟨Nat.lt_succ_of_lt old,place.imp_right (allocate_other (Nat.ne_of_lt old)).trans⟩
  · obtain ⟨before,x,after,rfl,room⟩ := findBlock_sound allocated allocated.cursor searched
    have located := allocated.block_at
    rw [stored] at located
    have block_eq := Option.some.inj located
    have placed : blockEnd block = x.ptr + x.size := by rw [block_eq]; rfl
    have inserted := allocated.insert blockMap room layout.unlisted stored
    refine Or.inr ⟨before,head,x,after,rfl,searched,by simp [placed],by simp [placed],inserted,?_,?_,?_⟩
    · intro cell member
      rcases mem_behind.mp member with rfl | old
      · exact Nat.le_trans (layout.above (head,x) (by simp)) (Nat.le_add_right _ _)
      · exact layout.above cell old
    · intro a member
      rcases mem_addresses_behind.mp member with new | old
      · exact new ▸ Nat.lt_succ_self _
      · exact Nat.lt_succ_of_lt (layout.made a old)
    · intro v holds
      rcases hashmapSet_holds set holds with rfl | before
      · exact ⟨Nat.lt_succ_of_lt (layout.made _ (by simp [addresses])),Or.inl (by simp [addresses])⟩
      rcases updateNext_holds update before with rfl | old
      · exact ⟨Nat.lt_succ_self _,Or.inl (by simp [addresses])⟩
      obtain ⟨had,place⟩ := layout.known v old
      refine ⟨Nat.lt_succ_of_lt had,?_⟩
      have notNew : v ≠ s.made := Nat.ne_of_lt had
      rcases place with listed | gone
      · exact Or.inl (mem_addresses_behind.mpr (Or.inr listed))
      · by_cases onHead : v = head
        · exact Or.inl (by simp [addresses,onHead])
        · exact Or.inr ((insertBlock_other onHead notNew).trans ((allocate_other notNew).trans gone))

theorem malloc_layout (layout : Layout s cells) (ran : s.call libc (.malloc bytes) = some t) :
    (t.live = s.live ∧ t.results = s.results ++ [none] ∧ Layout t cells) ∨
    ∃ before head x after, cells = before ++ (head,x) :: after ∧
      t.live = s.live ++ [(x.ptr + x.size,bytes)] ∧ t.results = s.results ++ [some (x.ptr + x.size)] ∧
      Layout t (before ++ (head,x) :: (s.made,⟨x.ptr + x.size,bytes⟩) :: after) := by
  rcases malloc_found layout ran with ⟨_,full⟩ | ⟨before,head,x,after,split,_,placed⟩
  · exact Or.inl full
  · exact Or.inr ⟨before,head,x,after,split,placed⟩

-- A free that finds a node unlinks the block behind one that starts at the address given.
theorem free_layout (layout : Layout s cells) (ran : s.call libc (.free ptr) = some t) :
    t.live = s.live.filter (·.1 ≠ ptr) ∧ t.results = s.results ∧ (Layout t cells ∨
    ∃ before a x b y after rest, cells = before ++ (a,x) :: (b,y) :: after ∧ x.ptr = ptr ∧
      removeLoop s.store ptr (getNode s.heap.blockMap ptr) = some (some (a,rest)) ∧
      Layout t (before ++ (a,x) :: after)) := by
  obtain ⟨⟨store,heap⟩,freed,same⟩ := Option.bind_eq_some_iff.mp ran
  cases same
  refine ⟨rfl,rfl,?_⟩
  rcases heapFree_cases freed with ⟨_,rfl,rfl⟩ |
    ⟨a,blockMap,block,b,unlinked,removed,stored,next,there,rfl,rfl⟩
  · exact Or.inl ⟨layout.wf,layout.above,layout.made,layout.known⟩
  · rcases hashmapRemove_cases removed with ⟨_,absent,_⟩ | ⟨value,rest,loop,same,rfl⟩
    · cases absent
    cases same
    obtain ⟨⟨hit,atValue,starts⟩,node,same,member,_⟩ := removeLoop_found loop
    rw [stored] at atValue
    cases atValue
    have listed : a ∈ addresses cells := by
      rcases (layout.known a ⟨_,node,member,same⟩).2 with listed | gone
      · exact listed
      · rw [stored] at gone; cases gone
    obtain ⟨before,x,after,rfl⟩ := mem_split listed
    have located := layout.wf.block_at
    rw [stored] at located
    have block_eq := Option.some.inj located
    obtain ⟨y,after,rfl⟩ := layout.wf.chain.successor (b := b)
      (links_eq.mpr (by rw [stored,block_eq]; simpa [block_eq] using next))
    have starts' : x.ptr = ptr := by rw [← starts,block_eq]
    refine Or.inr ⟨before,a,x,b,y,after,rest,rfl,starts',loop,layout.wf.unlink stored there,?_,?_,?_⟩
    · exact fun cell member => layout.above cell (mem_behind.mpr (Or.inr member))
    · exact fun c member => layout.made c (mem_addresses_behind.mpr (Or.inr member))
    · intro v holds
      obtain ⟨had,place⟩ := layout.known v (hashmapRemove_holds removed holds)
      refine ⟨had,?_⟩
      by_cases unlisted : v = b
      · exact Or.inr (by simp [unlisted])
      rcases place with listed | gone
      · exact Or.inl ((mem_addresses_behind.mp listed).resolve_left unlisted)
      · refine Or.inr ?_
        have notA : v ≠ a := by
          rintro rfl
          rw [stored] at gone
          cases gone
        simp [unlisted,notA,gone]

def HasLayout (s : Session) : Prop := ∃ cells, Layout s cells

theorem call_layout (before : HasLayout s) (ran : s.call libc call = some t) : HasLayout t := by
  obtain ⟨cells,layout⟩ := before
  cases call with
  | malloc bytes =>
    rcases malloc_layout layout ran with ⟨_,_,next⟩ | ⟨_,_,_,_,_,_,_,next⟩
    · exact ⟨_,next⟩
    · exact ⟨_,next⟩
  | free ptr =>
    obtain ⟨_,_,next | ⟨_,_,_,_,_,_,_,_,_,_,next⟩⟩ := free_layout layout ran
    · exact ⟨_,next⟩
    · exact ⟨_,next⟩

theorem run_layout (clean : (libc.prior 0).next = none) (ran : (sessions libc).run (Session.start libc region) calls = some s) :
    HasLayout s :=
  Guarded.Machine.run_invariant (fun _ _ _ => call_layout) ⟨_,start_layout region clean⟩ ran

-- The store holds no descriptor beyond those that were made.
def Numbered (s : Session) : Prop := ∀ a, s.made ≤ a → s.store a = none

theorem start_numbered (libc : Libc) (region : Region) : Numbered (Session.start libc region) := by
  intro a later
  have notDummy : a ≠ 0 := Nat.ne_of_gt later
  simp [Session.start,heapInit,notDummy]

theorem call_numbered (numbered : Numbered s) (ran : s.call libc call = some t) : Numbered t := by
  intro a later
  cases call with
  | malloc bytes =>
    obtain ⟨⟨store,heap,result⟩,malloced,same⟩ := Option.bind_eq_some_iff.mp ran
    cases same
    have notNew : a ≠ s.made := Nat.ne_of_gt later
    have before : allocate libc s.store s.made bytes a = none :=
      (allocate_other notNew).trans (numbered a (Nat.le_of_lt later))
    rcases heapMalloc_cases malloced with ⟨_,rfl,_,_⟩ | ⟨head,block,_,_,_,stored,_,_,rfl,_,_⟩
    · exact before
    · have notHead : a ≠ head := by
        rintro rfl
        rw [stored] at before
        cases before
      exact (insertBlock_other notHead notNew).trans before
  | free ptr =>
    obtain ⟨⟨store,heap⟩,freed,same⟩ := Option.bind_eq_some_iff.mp ran
    cases same
    have before := numbered a later
    rcases heapFree_cases freed with ⟨_,rfl,_⟩ | ⟨b,_,block,c,unlinked,_,stored,_,there,rfl,_⟩
    · exact before
    · have notB : a ≠ b := by
        rintro rfl
        rw [stored] at before
        cases before
      by_cases released : a = c
      · simp [released]
      · simpa [released,notB] using before

theorem run_numbered (ran : (sessions libc).run (Session.start libc region) calls = some s) : Numbered s :=
  Guarded.Machine.run_invariant (fun _ _ _ => call_numbered) (start_numbered libc region) ran

end OpenShmem
