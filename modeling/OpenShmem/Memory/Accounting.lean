import OpenShmem.Memory.Finalize

namespace OpenShmem
open Linked Extents

-- The descriptor of a heap_malloc that returned NULL: made, and on no list ever after.
def Lost (results : List (Option Nat)) (a : Nat) : Prop := ∃ i, results[i]? = some none ∧ a = i + 1

-- The ledger of the descriptors: each one that was made and not released is on the block
-- list, or else lost.
structure Inventory (s : Session) (cells : List Cell) : Prop where
  layout : Layout s cells
  counted : s.made = s.results.length + 1
  stored : ∀ a, s.store a ≠ none ↔ a ∈ addresses cells ∨ Lost s.results a
  unlisted : ∀ a, Lost s.results a → a ∉ addresses cells

variable {libc : Libc} {region : Region} {s t : Session} {results : List (Option Nat)} {cells : List Cell}

theorem lost_push (result : Option Nat) {a : Nat} : Lost (results ++ [result]) a ↔ Lost results a ∨ (result = none ∧ a = results.length + 1) := by
  constructor
  · intro ⟨i,found,same⟩
    rcases Nat.lt_trichotomy i results.length with old | rfl | beyond
    · rw [List.getElem?_append_left old] at found
      exact Or.inl ⟨i,found,same⟩
    · rw [List.getElem?_append_right (Nat.le_refl _),Nat.sub_self] at found
      exact Or.inr ⟨Option.some.inj found,same⟩
    · rw [List.getElem?_eq_none (by simpa using Nat.succ_le_of_lt beyond)] at found
      cases found
  · rintro (⟨i,found,same⟩ | ⟨rfl,same⟩)
    · obtain ⟨inside,_⟩ := List.getElem?_eq_some_iff.mp found
      exact ⟨i,by rw [List.getElem?_append_left inside]; exact found,same⟩
    · exact ⟨results.length,by simp,same⟩

theorem Lost.bound (lost : Lost results a) : a ≤ results.length := by
  obtain ⟨i,found,rfl⟩ := lost
  obtain ⟨inside,_⟩ := List.getElem?_eq_some_iff.mp found
  exact inside

theorem allocate_stored {a : Nat} : allocate libc store new bytes a ≠ none ↔ a = new ∨ store a ≠ none := by
  by_cases same : a = new
  · simp [allocate,same]
  · simp [allocate_other same,same]

theorem insertBlock_stored {a : Nat} (stored : store head = some block) (made : store new ≠ none) :
    insertBlock store head block new bytes a ≠ none ↔ store a ≠ none := by
  by_cases onHead : a = head
  · simp [insertBlock,onHead,stored]
  by_cases same : a = new
  · subst same
    simp [insertBlock,onHead,made]
  · rw [insertBlock_other onHead same]

-- A heap_malloc makes one descriptor and releases none, whatever it returns.
theorem malloc_stored (ran : s.call libc (.malloc bytes) = some t) :
    t.made = s.made + 1 ∧ ∀ a, t.store a ≠ none ↔ a = s.made ∨ s.store a ≠ none := by
  obtain ⟨⟨store,heap,result⟩,malloced,same⟩ := Option.bind_eq_some_iff.mp ran
  cases same
  refine ⟨rfl,fun a => ?_⟩
  rcases heapMalloc_cases malloced with ⟨_,rfl,_,_⟩ | ⟨head,block,_,_,_,stored,_,_,rfl,_,_⟩
  · exact allocate_stored
  · exact (insertBlock_stored stored (allocate_stored.mpr (Or.inl rfl))).trans allocate_stored

-- A heap_free that finds a node releases one descriptor, the one it takes off the list.
theorem free_stored (layout : Layout s cells) (ran : s.call libc (.free ptr) = some t) :
    t.made = s.made ∧ t.results = s.results ∧ ((t.store = s.store ∧ Layout t cells) ∨
      ∃ before a x b y after, cells = before ++ (a,x) :: (b,y) :: after ∧ Layout t (before ++ (a,x) :: after) ∧
        ∀ c, t.store c ≠ none ↔ c ≠ b ∧ s.store c ≠ none) := by
  obtain ⟨_,results,placed⟩ := free_layout layout ran
  obtain ⟨⟨store,heap⟩,freed,same⟩ := Option.bind_eq_some_iff.mp ran
  cases same
  refine ⟨rfl,rfl,?_⟩
  rcases heapFree_cases freed with ⟨_,rfl,rfl⟩ | ⟨a,blockMap,block,b,unlinked,removed,stored,next,there,rfl,rfl⟩
  · exact Or.inl ⟨rfl,layout.wf,layout.above,layout.made,layout.known⟩
  refine Or.inr ?_
  rcases hashmapRemove_cases removed with ⟨_,absent,_⟩ | ⟨value,rest,loop,same,_⟩
  · cases absent
  cases same
  rcases placed with still | ⟨before,c,x,d,y,after,tail,rfl,_,again,unlinkedLayout⟩
  · -- The walk found a block of the list, so its successor cannot be on the list still.
    obtain ⟨_,node,same,member,_⟩ := removeLoop_found loop
    have listed : a ∈ addresses cells := by
      rcases (layout.known a ⟨_,node,member,same⟩).2 with listed | gone
      · exact listed
      · rw [stored] at gone
        cases gone
    obtain ⟨before,x,after,rfl⟩ := mem_split listed
    have located := layout.wf.block_at
    rw [stored] at located
    have block_eq := Option.some.inj located
    have linked : links s.store a = some (x,some b) := links_eq.mpr (by rw [stored,block_eq]; simpa [block_eq] using next)
    obtain ⟨y,rest,rfl⟩ := layout.wf.chain.successor linked
    obtain ⟨z,found⟩ := still.wf.chain.look_eq (a := b) (x := y) (by simp)
    simp [links] at found
  · have walk : removeLoop s.store ptr (getNode s.heap.blockMap ptr) = some (some (a,rest)) := loop
    rw [again] at walk
    cases walk
    have located := layout.wf.block_at
    rw [stored] at located
    cases located
    cases next
    refine ⟨before,a,x,d,y,after,rfl,unlinkedLayout,fun c => ?_⟩
    by_cases released : c = d
    · simp [released]
    by_cases here : c = a
    · subst here
      simp [released,stored]
    · simp [released,here]

theorem start_inventory (region : Region) (clean : (libc.prior 0).next = none) :
    Inventory (Session.start libc region) [(0,⟨region.base,0⟩)] := by
  refine ⟨start_layout region clean,rfl,fun a => ?_,?_⟩
  · by_cases dummy : a = 0
    · simp [Session.start,heapInit,dummy]
    · simp [Session.start,heapInit,dummy,Lost]
  · intro a lost
    obtain ⟨i,found,_⟩ := lost
    cases found

theorem Inventory.malloc (inventory : Inventory s cells) (ran : s.call libc (.malloc bytes) = some t) : ∃ next, Inventory t next := by
  obtain ⟨made,stored⟩ := malloc_stored ran
  have counted := inventory.counted
  rcases malloc_layout inventory.layout ran with ⟨_,results,layout⟩ | ⟨before,head,x,after,rfl,_,results,layout⟩
  · refine ⟨cells,layout,by rw [results,List.length_append,made,counted]; rfl,fun a => ?_,fun a lost => ?_⟩
    · rw [stored,inventory.stored,results,lost_push,counted]
      constructor
      · rintro (here | listed | lost)
        · exact Or.inr (Or.inr ⟨rfl,here⟩)
        · exact Or.inl listed
        · exact Or.inr (Or.inl lost)
      · rintro (listed | lost | ⟨_,here⟩)
        · exact Or.inr (Or.inl listed)
        · exact Or.inr (Or.inr lost)
        · exact Or.inl here
    · rw [results,lost_push] at lost
      rcases lost with old | ⟨_,here⟩
      · exact inventory.unlisted a old
      · rw [here,← counted]
        exact inventory.layout.unlisted
  · refine ⟨_,layout,by rw [results,List.length_append,made,counted]; rfl,fun a => ?_,fun a lost => ?_⟩
    · rw [stored,inventory.stored,results,lost_push,mem_addresses_behind]
      simp only [reduceCtorEq,false_and,or_false,or_assoc]
    · rw [results,lost_push] at lost
      obtain old := lost.resolve_right fun new => by cases new.1
      intro listed
      rcases mem_addresses_behind.mp listed with here | before
      · have bound := old.bound
        omega
      · exact inventory.unlisted a old before

theorem Inventory.free (inventory : Inventory s cells) (ran : s.call libc (.free ptr) = some t) : ∃ next, Inventory t next := by
  obtain ⟨made,results,⟨same,layout⟩ | ⟨before,a,x,b,y,after,rfl,layout,stored⟩⟩ := free_stored inventory.layout ran
  · refine ⟨cells,layout,by rw [made,results]; exact inventory.counted,?_,?_⟩
    · rw [same,results]
      exact inventory.stored
    · rw [results]
      exact inventory.unlisted
  · have once := not_mem_removed inventory.layout.wf.chain.nodup
    refine ⟨_,layout,by rw [made,results]; exact inventory.counted,fun c => ?_,?_⟩
    · rw [stored,inventory.stored,results,mem_addresses_behind]
      constructor
      · rintro ⟨other,(here | listed) | lost⟩
        · exact absurd here other
        · exact Or.inl listed
        · exact Or.inr lost
      · rintro (listed | lost)
        · refine ⟨?_,Or.inl (Or.inr listed)⟩
          rintro rfl
          exact once listed
        · refine ⟨?_,Or.inr lost⟩
          rintro rfl
          exact inventory.unlisted c lost (mem_addresses_behind.mpr (Or.inl rfl))
    · intro c lost listed
      rw [results] at lost
      exact inventory.unlisted c lost (mem_addresses_behind.mpr (Or.inr listed))

def Inventoried (s : Session) : Prop := ∃ cells, Inventory s cells

theorem run_inventoried (clean : (libc.prior 0).next = none) (ran : (sessions libc).run (Session.start libc region) calls = some s) :
    Inventoried s := by
  have kept : ∀ s call t, Inventoried s → (sessions libc).step s call = some t → Inventoried t := by
    intro s call t ⟨cells,inventory⟩ stepped
    have called : s.call libc call = some t := stepped
    cases call with
    | malloc bytes => exact inventory.malloc called
    | free ptr => exact inventory.free called
  exact Guarded.Machine.run_invariant kept ⟨_,start_inventory region clean⟩ ran

theorem released_stored (names : List Nat) (store : Store) {a : Nat} :
    names.foldl Store.release store a ≠ none ↔ a ∉ names ∧ store a ≠ none := by
  induction names generalizing store with
  | nil => simp
  | cons name rest ih =>
    rw [List.foldl_cons,ih,List.mem_cons,not_or]
    by_cases here : a = name
    · simp [here]
    · simp [here]

-- What heap_finalize releases and what it leaves behind.
structure Finalizes (s : Session) : Prop where
  accounted : ∃ before x after left, Inventory s (before ++ (s.heap.head,x) :: after) ∧
    heapFinalize s.made s.store s.heap = some (s.heap.head :: addresses after,left) ∧
    ∀ a, left a ≠ none ↔ a ∈ addresses before ∨ Lost s.results a

-- In every run the descriptors made and not released are the ones on the list and the ones
-- of failed calls; heap_finalize releases the blocks from the cursor on, and no others.
theorem descriptors_accounted (clean : (libc.prior 0).next = none)
    (ran : (sessions libc).run (Session.start libc region) calls = some s) : Finalizes s := by
  obtain ⟨cells,inventory⟩ := run_inventoried clean ran
  obtain ⟨before,x,after,rfl⟩ := mem_split inventory.layout.wf.cursor
  have chain := inventory.layout.wf.chain
  have entered := chain.enter
  have once := chain.nodup
  refine ⟨before,x,after,_,inventory,finalizeLoop_chain entered ((run_numbered ran).length_le entered),fun a => ?_⟩
  rw [released_stored,inventory.stored,addresses_append,List.mem_append]
  constructor
  · rintro ⟨kept,(early | late) | lost⟩
    · exact Or.inl early
    · exact absurd late kept
    · exact Or.inr lost
  · rintro (early | lost)
    · refine ⟨fun late => ?_,Or.inl (Or.inl early)⟩
      rw [addresses_append] at once
      exact (List.nodup_append.mp once).2.2 a early a late rfl
    · refine ⟨fun late => ?_,Or.inr lost⟩
      exact inventory.unlisted a lost (by rw [addresses_append]; exact List.mem_append_right _ late)

-- The second of three calls fails: its descriptor is the one that is lost.
theorem descriptors_accounted_failed : ∃ s, (sessions ⟨fun n => 65536 + 32 * n,fun _ => ⟨7,7,none⟩⟩).run
    (Session.start ⟨fun n => 65536 + 32 * n,fun _ => ⟨7,7,none⟩⟩ ⟨4096,64,by decide⟩) [.malloc 8,.malloc 100,.malloc 16] = some s ∧
    Finalizes s := by
  let libc : Libc := ⟨fun n => 65536 + 32 * n,fun _ => ⟨7,7,none⟩⟩
  let first : Session := Session.start libc ⟨4096,64,by decide⟩
  have some : ((sessions libc).run first [.malloc 8,.malloc 100,.malloc 16]).isSome := by decide +kernel
  obtain ⟨s,ran⟩ := Option.isSome_iff_exists.mp some
  exact ⟨s,ran,descriptors_accounted rfl ran⟩

end OpenShmem
