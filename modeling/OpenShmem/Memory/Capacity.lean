import OpenShmem.Library.Totals
import OpenShmem.Memory.NextFit

namespace OpenShmem
open Linked Extents Totals

-- The bytes that the blocks of the list hold, and those of the gaps behind them.
def occupied (cells : List Cell) : Nat := along (fun cell => cell.2.size) cells
def spare (heap : Heap) (cells : List Cell) : Nat := along Prod.snd (gaps heap [] cells)

variable {libc : Libc} {region : Region} {s t : Session} {store : Store} {heap : Heap} {before after cells : List Cell}

@[simp] theorem occupied_nil : occupied [] = 0 := rfl

@[simp] theorem occupied_append (first second : List Cell) : occupied (first ++ second) = occupied first + occupied second :=
  along_append _ first second

@[simp] theorem occupied_cons (cell : Cell) (rest : List Cell) : occupied (cell :: rest) = cell.2.size + occupied rest := rfl

@[simp] theorem spare_nil : spare heap [] = 0 := rfl

@[simp] theorem spare_cons (a : Nat) (x : Extent) (rest : List Cell) :
    spare heap ((a,x) :: rest) = gapEnd heap rest - (x.ptr + x.size) + spare heap rest := by
  simp [spare,gaps]

@[simp] theorem gaps_length (rest : List Cell) : (gaps heap rest cells).length = cells.length := by
  induction cells with
  | nil => rfl
  | cons cell cells ih => rw [gaps,List.length_cons,List.length_cons,ih]

-- From any block on, the blocks and the gaps behind them fill the region up to its end.
theorem WellFormed.filled (wf : WellFormed store heap (before ++ (a,x) :: after)) :
    x.ptr + occupied ((a,x) :: after) + spare heap ((a,x) :: after) = heapEnd heap := by
  induction after generalizing before a x with
  | nil =>
    have order := wf.gap_order.1
    simp only [gapEnd] at order
    simp only [occupied_cons,spare_cons,gapEnd,occupied_nil,spare_nil]
    omega
  | cons cell rest ih =>
    obtain ⟨c,z⟩ := cell
    have order := wf.gap_order.1
    have moved : WellFormed store heap ((before ++ [(a,x)]) ++ (c,z) :: rest) := by simpa using wf
    have behind := ih moved
    simp only [gapEnd] at order
    simp only [occupied_cons,spare_cons,gapEnd] at behind ⊢
    omega

-- The dummy block stays at the front of the list, and at the base of the region.
structure Rooted (region : Region) (s : Session) (cells : List Cell) : Prop where
  layout : Layout s cells
  front : cells.head? = some (s.heap.tail,⟨region.base,0⟩)
  base : s.heap.ptr = region.base
  size : s.heap.size = region.size

theorem Rooted.filled (rooted : Rooted region s cells) : occupied cells + spare s.heap cells = region.size := by
  obtain ⟨rest,rfl⟩ := List.head?_eq_some_iff.mp rooted.front
  have wf : WellFormed s.store s.heap ([] ++ (s.heap.tail,⟨region.base,0⟩) :: rest) := rooted.layout.wf
  have total := wf.filled
  simp only [heapEnd,rooted.base,rooted.size] at total
  omega

-- No call moves the region or the dummy block.
theorem call_fixed (ran : s.call libc call = some t) :
    t.heap.ptr = s.heap.ptr ∧ t.heap.size = s.heap.size ∧ t.heap.tail = s.heap.tail := by
  cases call with
  | malloc bytes =>
    obtain ⟨⟨store,heap,result⟩,malloced,same⟩ := Option.bind_eq_some_iff.mp ran
    cases same
    rcases heapMalloc_cases malloced with ⟨_,_,rfl,_⟩ | ⟨_,_,_,_,_,_,_,_,_,rfl,_⟩
    · exact ⟨rfl,rfl,rfl⟩
    · exact ⟨rfl,rfl,rfl⟩
  | free ptr =>
    obtain ⟨⟨store,heap⟩,freed,same⟩ := Option.bind_eq_some_iff.mp ran
    cases same
    rcases heapFree_cases freed with ⟨_,_,rfl⟩ | ⟨_,_,_,_,_,_,_,_,_,_,rfl⟩
    · exact ⟨rfl,rfl,rfl⟩
    · exact ⟨rfl,rfl,rfl⟩

theorem head_behind {x y : Cell} : (before ++ x :: y :: after).head? = (before ++ x :: after).head? := by
  cases before with
  | nil => rfl
  | cons first before => rfl

theorem start_rooted (region : Region) (clean : (libc.prior 0).next = none) :
    Rooted region (Session.start libc region) [(0,⟨region.base,0⟩)] :=
  ⟨start_layout region clean,rfl,rfl,rfl⟩

-- A heap_malloc takes its bytes from the gaps, or fails with every gap smaller than that.
theorem Rooted.malloc (rooted : Rooted region s cells) (ran : s.call libc (.malloc bytes) = some t) :
    (t.results = s.results ++ [none] ∧ Rooted region t cells ∧ region.size + cells.length ≤ occupied cells + cells.length * bytes) ∨
    ∃ p next, t.results = s.results ++ [some p] ∧ Rooted region t next ∧ occupied next = occupied cells + bytes ∧
      next.length = cells.length + 1 := by
  obtain ⟨ptr,size,tail⟩ := call_fixed ran
  have base := ptr.trans rooted.base
  have whole := size.trans rooted.size
  rcases malloc_layout rooted.layout ran with ⟨_,results,layout⟩ | ⟨before,head,x,after,rfl,_,results,layout⟩
  · refine Or.inl ⟨results,⟨layout,tail ▸ rooted.front,base,whole⟩,?_⟩
    obtain ⟨⟨store,heap,result⟩,malloced,same⟩ := Option.bind_eq_some_iff.mp ran
    cases same
    obtain rfl : result = none := by simpa using results
    have fit := heapMalloc_nextFit libc rooted.layout.wf rooted.layout.made bytes
    obtain ⟨rfl,_,_⟩ := fit.unchanged _ _ malloced
    have none := fit.null.mp ⟨_,malloced⟩
    have below : ∀ gap ∈ gaps s.heap [] cells, gap.2 < bytes := by
      intro gap member
      obtain ⟨front,a,x,back,rfl,rfl⟩ := mem_gaps.mp member
      rw [List.append_nil]
      exact Nat.lt_of_not_le fun room => none front a x back rfl (rooted.layout.wf.room_iff.mpr room)
    have full := along_below below
    have filled := rooted.filled
    rw [gaps_length] at full
    unfold spare at filled
    omega
  · refine Or.inr ⟨_,_,results,⟨layout,?_,base,whole⟩,?_,?_⟩
    · rw [tail,head_behind]
      exact rooted.front
    · simp only [occupied_append,occupied_cons]
      omega
    · simp only [List.length_append,List.length_cons]
      omega

-- A heap_free gives back the bytes of the one block it takes off the list, if any.
theorem Rooted.free (rooted : Rooted region s cells) (ran : s.call libc (.free ptr) = some t) :
    ∃ next, t.results = s.results ∧ Rooted region t next ∧ (next = cells ∨
      ∃ b y, (b,y) ∈ cells ∧ occupied next + y.size = occupied cells ∧ next.length + 1 = cells.length) := by
  obtain ⟨ptr,size,tail⟩ := call_fixed ran
  have base := ptr.trans rooted.base
  have whole := size.trans rooted.size
  obtain ⟨_,results,layout | ⟨before,a,x,b,y,after,_,rfl,_,_,layout⟩⟩ := free_layout rooted.layout ran
  · exact ⟨cells,results,⟨layout,tail ▸ rooted.front,base,whole⟩,Or.inl rfl⟩
  · refine ⟨_,results,⟨layout,?_,base,whole⟩,Or.inr ⟨b,y,by simp,?_,?_⟩⟩
    · rw [tail,← head_behind]
      exact rooted.front
    · simp only [occupied_append,occupied_cons]
      omega
    · simp only [List.length_append,List.length_cons]
      omega

-- What the blocks may hold after a call, by what they held before it.
def Transfers (region : Region) (s t : Session) (cells next : List Cell) : Call → Prop
  | .malloc bytes =>
    (t.results = s.results ++ [none] ∧ next = cells ∧ region.size + cells.length ≤ occupied cells + cells.length * bytes) ∨
    ∃ p, t.results = s.results ++ [some p] ∧ occupied next = occupied cells + bytes ∧ next.length = cells.length + 1
  | .free _ => next = cells ∨
    ∃ b y, (b,y) ∈ cells ∧ occupied next + y.size = occupied cells ∧ next.length + 1 = cells.length

structure Accounts (libc : Libc) (region : Region) (s : Session) (cells : List Cell) : Prop where
  rooted : Rooted region s cells
  filled : occupied cells + spare s.heap cells = region.size
  transfers : ∀ call t, s.call libc call = some t → ∃ next, Rooted region t next ∧
    occupied next + spare t.heap next = region.size ∧ Transfers region s t cells next call

theorem Rooted.accounts (rooted : Rooted region s cells) (libc : Libc) : Accounts libc region s cells := by
  refine ⟨rooted,rooted.filled,fun call t called => ?_⟩
  cases call with
  | malloc bytes =>
    rcases rooted.malloc called with ⟨results,later,full⟩ | ⟨p,next,results,later,more,longer⟩
    · exact ⟨cells,later,later.filled,Or.inl ⟨results,rfl,full⟩⟩
    · exact ⟨next,later,later.filled,Or.inr ⟨p,results,more,longer⟩⟩
  | free ptr =>
    obtain ⟨next,_,later,less⟩ := rooted.free called
    exact ⟨next,later,later.filled,less⟩

def IsRooted (region : Region) (s : Session) : Prop := ∃ cells, Rooted region s cells

-- In every run the blocks and the gaps make up the region. When a call fails, the k gaps hold
-- at least k bytes less than k such blocks would take.
theorem region_accounted (clean : (libc.prior 0).next = none)
    (ran : (sessions libc).run (Session.start libc region) calls = some s) : ∃ cells, Accounts libc region s cells := by
  have kept : ∀ s call t, IsRooted region s → (sessions libc).step s call = some t → IsRooted region t := by
    intro s call t ⟨cells,rooted⟩ stepped
    obtain ⟨next,later,_⟩ := (rooted.accounts libc).transfers call t stepped
    exact ⟨next,later⟩
  obtain ⟨cells,rooted⟩ := Guarded.Machine.run_invariant kept ⟨_,start_rooted region clean⟩ ran
  exact ⟨cells,rooted.accounts libc⟩

-- A block in the middle is freed: the gap it leaves is too small for the last call.
theorem region_accounted_split : ∃ s, (sessions ⟨fun n => 65536 + 32 * n,fun _ => ⟨7,7,none⟩⟩).run
    (Session.start ⟨fun n => 65536 + 32 * n,fun _ => ⟨7,7,none⟩⟩ ⟨4096,64,by decide⟩)
    [.malloc 24,.malloc 16,.free 4096,.malloc 30] = some s ∧
    ∃ cells, Accounts ⟨fun n => 65536 + 32 * n,fun _ => ⟨7,7,none⟩⟩ ⟨4096,64,by decide⟩ s cells := by
  let libc : Libc := ⟨fun n => 65536 + 32 * n,fun _ => ⟨7,7,none⟩⟩
  let first : Session := Session.start libc ⟨4096,64,by decide⟩
  have some : ((sessions libc).run first [.malloc 24,.malloc 16,.free 4096,.malloc 30]).isSome := by decide +kernel
  obtain ⟨s,ran⟩ := Option.isSome_iff_exists.mp some
  exact ⟨s,ran,region_accounted rfl ran⟩

end OpenShmem
