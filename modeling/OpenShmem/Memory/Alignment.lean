import OpenShmem.Memory.NamedFree
import OpenShmem.Memory.SharedHeap

namespace OpenShmem
open Linked Extents

-- The maximal fundamental alignment.
def alignment : Nat := 16

def Aligned (results : List (Option Nat)) : Prop := ∀ p, some p ∈ results → alignment ∣ p

-- Next-fit puts a block of this size behind `a`: of the blocks from the cursor to the end of
-- the list, and then from the dummy block on, `a` is the first one with that much room behind it.
def PutsBehind (store : Store) (heap : Heap) (bytes a : Nat) (x : Extent) : Prop :=
  ∃ before y after, Chain (links store) (some heap.tail) (before ++ (heap.head,y) :: after) ∧
    (a,x) ∈ before ++ (heap.head,y) :: after ∧ firstFit bytes (searchOrder heap before (heap.head,y) after) = some a

-- No block is put behind one whose size is not a multiple of the alignment.
def KeepsAligned (pe : Symmetric) : Call → Prop
  | .malloc bytes => ∀ a x, PutsBehind pe.store pe.symmetricHeap.heap bytes a x → alignment ∣ x.size
  | .free _ => True

variable {libc : Libc} {region : Region} {s t : Session} {pe qe : Symmetric} {cells before after : List Cell} {a b bytes : Nat} {x y : Extent}

theorem PutsBehind.unique (one : PutsBehind store heap bytes a x) (two : PutsBehind store heap bytes b y) : a = b ∧ x = y := by
  obtain ⟨front,z,back,chain,first,chosen⟩ := one
  obtain ⟨front',z',back',chain',second,chosen'⟩ := two
  have once := chain.nodup
  have same := chain.unique chain'
  obtain ⟨rfl,rfl,rfl⟩ := split_unique once same
  rw [chosen] at chosen'
  cases chosen'
  exact ⟨rfl,entry_unique once first second⟩

-- What heap_malloc does to the list, told by next-fit.
theorem malloc_puts (layout : Layout s cells) (called : s.call libc (.malloc bytes) = some t) :
    ((∀ a x, ¬ PutsBehind s.store s.heap bytes a x) ∧ t.results = s.results ++ [none] ∧ Layout t cells) ∨
    ∃ before head x after, cells = before ++ (head,x) :: after ∧ PutsBehind s.store s.heap bytes head x ∧
      t.results = s.results ++ [some (x.ptr + x.size)] ∧
      Layout t (before ++ (head,x) :: (s.made,⟨x.ptr + x.size,bytes⟩) :: after) := by
  obtain ⟨front,y,back,split⟩ := mem_split layout.wf.cursor
  have searched := layout.wf.search_eq libc layout.made bytes split
  rcases malloc_found layout called with ⟨found,_,results,next⟩ | ⟨before,head,x,after,rfl,found,_,results,next⟩
  · refine Or.inl ⟨?_,results,next⟩
    intro a x puts
    obtain ⟨front',z,back',chain,_,chosen⟩ := puts
    have same := chain.unique (split ▸ layout.wf.chain)
    obtain ⟨rfl,rfl,rfl⟩ := split_unique chain.nodup same
    rw [searched,chosen] at found
    cases found
  · refine Or.inr ⟨before,head,x,after,rfl,⟨front,y,back,split ▸ layout.wf.chain,?_,?_⟩,results,next⟩
    · rw [← split]
      simp
    · exact Option.some.inj (searched.symm.trans found)

-- As long as what was returned is aligned, so are the starts of all blocks.
def Grounded (pe : Symmetric) : Prop :=
  ∃ cells, Layout pe.session cells ∧ (Aligned pe.returned → ∀ cell ∈ cells, alignment ∣ cellStart cell)

theorem aligned_append (results : List (Option Nat)) (p : Nat) : Aligned (results ++ [some p]) ↔ Aligned results ∧ alignment ∣ p := by
  constructor
  · intro aligned
    refine ⟨fun q member => aligned q (List.mem_append_left _ member),aligned p (by simp)⟩
  · intro both
    obtain ⟨aligned,last⟩ := both
    intro q member
    rcases List.mem_append.mp member with old | new
    · exact aligned q old
    · cases List.mem_singleton.mp new
      exact last

theorem aligned_failed (results : List (Option Nat)) : Aligned (results ++ [none]) ↔ Aligned results := by
  constructor
  · exact fun aligned q member => aligned q (List.mem_append_left _ member)
  · intro aligned q member
    rcases List.mem_append.mp member with old | new
    · exact aligned q old
    · cases List.mem_singleton.mp new

-- A call of shmem_malloc returns the end of a block that starts aligned, so what it
-- returns is aligned just when this block's size is.
theorem malloc_aligned (grounded : Grounded pe) (called : pe.call libc (.malloc bytes) = some qe) :
    Grounded qe ∧ (Aligned qe.returned ↔ Aligned pe.returned ∧ KeepsAligned pe (.malloc bytes)) := by
  obtain ⟨cells,layout,starts⟩ := grounded
  obtain ⟨t,below,store,heap,made,same⟩ := call_session called
  rcases malloc_puts layout below with ⟨nowhere,results,next⟩ | ⟨before,head,x,after,rfl,puts,results,next⟩
  · have returned : qe.returned = pe.returned ++ [none] := same.symm.trans results
    rw [returned,aligned_failed]
    refine ⟨⟨cells,next.congr store heap made,?_⟩,?_⟩
    · rw [returned,aligned_failed]
      exact starts
    · exact ⟨fun aligned => ⟨aligned,fun a x puts => absurd puts (nowhere a x)⟩,And.left⟩
  · have returned : qe.returned = pe.returned ++ [some (x.ptr + x.size)] := same.symm.trans results
    rw [returned,aligned_append]
    refine ⟨⟨_,next.congr store heap made,?_⟩,?_⟩
    · rw [returned,aligned_append]
      intro both cell member
      rcases mem_behind.mp member with rfl | old
      · exact both.2
      · exact starts both.1 cell old
    · have start : Aligned pe.returned → alignment ∣ x.ptr := fun aligned => starts aligned (head,x) (by simp)
      constructor
      · intro both
        obtain ⟨aligned,stop⟩ := both
        refine ⟨aligned,fun a y also => ?_⟩
        obtain ⟨_,rfl⟩ := puts.unique also
        exact (Nat.dvd_add_right (start aligned)).mp stop
      · intro both
        obtain ⟨aligned,keeps⟩ := both
        exact ⟨aligned,Nat.dvd_add (start aligned) (keeps head x puts)⟩

theorem free_aligned (grounded : Grounded pe) (called : pe.call libc (.free ptr) = some qe) :
    Grounded qe ∧ (Aligned qe.returned ↔ Aligned pe.returned ∧ KeepsAligned pe (.free ptr)) := by
  obtain ⟨cells,layout,starts⟩ := grounded
  obtain ⟨t,below,store,heap,made,same⟩ := call_session called
  obtain ⟨_,results,shorter⟩ := free_layout layout below
  have returned : qe.returned = pe.returned := same.symm.trans results
  rw [returned]
  refine ⟨?_,⟨fun aligned => ⟨aligned,trivial⟩,And.left⟩⟩
  rcases shorter with next | ⟨before,a,x,b,y,after,_,rfl,_,_,next⟩
  · exact ⟨cells,next.congr store heap made,by rw [returned]; exact starts⟩
  · refine ⟨_,next.congr store heap made,?_⟩
    rw [returned]
    exact fun aligned cell member => starts aligned cell (mem_behind.mpr (Or.inr member))

theorem call_aligned (grounded : Grounded pe) (called : pe.call libc call = some qe) :
    Grounded qe ∧ (Aligned qe.returned ↔ Aligned pe.returned ∧ KeepsAligned pe call) := by
  cases call with
  | malloc bytes => exact malloc_aligned grounded called
  | free ptr => exact free_aligned grounded called

theorem create_grounded (aligned : alignment ∣ region.base) (clean : (libc.prior 0).next = none) :
    Grounded (Symmetric.create libc region) := by
  have start : Layout (Session.start libc region) _ := start_layout region clean
  refine ⟨_,start.congr rfl rfl rfl,fun _ cell member => ?_⟩
  cases List.mem_singleton.mp member
  exact aligned

-- __pSync has the region's base, whatever its size is.
theorem commWireup_grounded (aligned : alignment ∣ region.base) (clean : (libc.prior 0).next = none)
    (started : commWireup libc region nPes = some pe) : Grounded pe := by
  obtain ⟨_,t,called,store,heap,made⟩ := commWireup_session started
  rcases malloc_layout (start_layout region clean) called with ⟨_,_,next⟩ | ⟨before,head,x,after,split,_,_,next⟩
  · refine ⟨_,next.congr store heap made,fun _ cell member => ?_⟩
    cases List.mem_singleton.mp member
    exact aligned
  · have alone : before = [] ∧ after = [] := by
      have lengths := congrArg List.length split
      simp only [List.length_cons,List.length_nil,List.length_append] at lengths
      exact ⟨List.length_eq_zero_iff.mp (by omega),List.length_eq_zero_iff.mp (by omega)⟩
    obtain ⟨rfl,rfl⟩ := alone
    cases split
    refine ⟨_,next.congr store heap made,fun _ cell member => ?_⟩
    rcases mem_behind.mp member with rfl | dummy
    · exact aligned
    · cases List.mem_singleton.mp dummy
      exact aligned

-- The symmetric heap that the first call of the user finds: as shared_heap_create makes it,
-- or behind comm_wireup's own allocation.
def Symmetric.Begins (libc : Libc) (region : Region) (pe : Symmetric) : Prop :=
  pe = Symmetric.create libc region ∨ ∃ nPes, commWireup libc region nPes = some pe

theorem begins_grounded (aligned : alignment ∣ region.base) (clean : (libc.prior 0).next = none)
    (begins : Symmetric.Begins libc region pe) : Grounded pe ∧ pe.returned = [] := by
  rcases begins with rfl | ⟨nPes,started⟩
  · exact ⟨create_grounded aligned clean,rfl⟩
  · exact ⟨commWireup_grounded aligned clean started,(commWireup_session started).1⟩

theorem shmemMalloc_aligned_iff (aligned : alignment ∣ region.base) (clean : (libc.prior 0).next = none)
    (begins : Symmetric.Begins libc region pe) (ran : (symmetric libc).run pe calls = some qe) :
    Aligned qe.returned ↔ (symmetric libc).Meets KeepsAligned pe calls := by
  obtain ⟨grounded,nothing⟩ := begins_grounded aligned clean begins
  have kept : ∀ pe call qe, Grounded pe → (symmetric libc).step pe call = some qe → Grounded qe :=
    fun _ _ _ grounded called => (call_aligned grounded called).1
  have tells : ∀ pe call qe, Grounded pe → (symmetric libc).step pe call = some qe →
      (Aligned qe.returned ↔ Aligned pe.returned ∧ KeepsAligned pe call) :=
    fun _ _ _ grounded called => (call_aligned grounded called).2
  have first : Aligned pe.returned := by
    rw [nothing]
    intro p member
    cases member
  have whole := Guarded.Machine.run_iff kept tells grounded ran
  exact ⟨fun safe => (whole.mp safe).2,fun meets => whole.mpr ⟨first,meets⟩⟩

-- The size of every block of the list is a multiple of the alignment.
def Sized (pe : Symmetric) : Prop := ∃ cells, Layout pe.session cells ∧ ∀ cell ∈ cells, alignment ∣ cell.2.size

theorem Sized.keeps (sized : Sized pe) (call : Call) : KeepsAligned pe call := by
  obtain ⟨cells,layout,sizes⟩ := sized
  cases call with
  | malloc bytes =>
    intro a x puts
    obtain ⟨before,y,after,chain,member,_⟩ := puts
    rw [chain.unique layout.wf.chain] at member
    exact sizes _ member
  | free ptr => trivial

theorem Sized.step (sized : Sized pe) (called : pe.call libc call = some qe) (size : ∀ bytes, call = .malloc bytes → alignment ∣ bytes) :
    Sized qe := by
  obtain ⟨cells,layout,sizes⟩ := sized
  obtain ⟨t,below,store,heap,made,_⟩ := call_session called
  cases call with
  | malloc bytes =>
    rcases malloc_layout layout below with ⟨_,_,next⟩ | ⟨before,head,x,after,rfl,_,_,next⟩
    · exact ⟨cells,next.congr store heap made,sizes⟩
    · refine ⟨_,next.congr store heap made,fun cell member => ?_⟩
      rcases mem_behind.mp member with rfl | old
      · exact size bytes rfl
      · exact sizes cell old
  | free ptr =>
    obtain ⟨_,_,next | ⟨before,a,x,b,y,after,_,rfl,_,_,next⟩⟩ := free_layout layout below
    · exact ⟨cells,next.congr store heap made,sizes⟩
    · exact ⟨_,next.congr store heap made,fun cell member => sizes cell (mem_behind.mpr (Or.inr member))⟩

-- Multiples of the alignment never show the violation.
theorem multiples_meet (sized : Sized pe) (sizes : ∀ bytes, Call.malloc bytes ∈ calls → alignment ∣ bytes) :
    (symmetric libc).Meets KeepsAligned pe calls := by
  induction calls generalizing pe with
  | nil => trivial
  | cons call rest ih =>
    refine ⟨sized.keeps call,fun qe called => ih (sized.step called ?_) ?_⟩
    · rintro bytes rfl
      exact sizes bytes List.mem_cons_self
    · exact fun bytes later => sizes bytes (List.mem_cons_of_mem _ later)

theorem create_sized (region : Region) (clean : (libc.prior 0).next = none) : Sized (Symmetric.create libc region) := by
  have start : Layout (Session.start libc region) _ := start_layout region clean
  refine ⟨_,start.congr rfl rfl rfl,fun cell member => ?_⟩
  cases List.mem_singleton.mp member
  exact Nat.dvd_zero _

theorem shmemMalloc_aligned_multiples : ∃ qe, (symmetric scattered).run (Symmetric.create scattered ⟨4096,64,by decide⟩)
    [.malloc 32,.malloc 16,.free 4096,.malloc 48] = some qe ∧ Aligned qe.returned := by
  let pe : Symmetric := Symmetric.create scattered ⟨4096,64,by decide⟩
  have defined : ((symmetric scattered).run pe [.malloc 32,.malloc 16,.free 4096,.malloc 48]).isSome = true := by decide +kernel
  obtain ⟨qe,ran⟩ := Option.isSome_iff_exists.mp defined
  refine ⟨qe,ran,(shmemMalloc_aligned_iff (by decide) rfl (Or.inl rfl) ran).mpr ?_⟩
  refine multiples_meet (create_sized _ rfl) fun bytes member => ?_
  simp only [List.mem_cons,Call.malloc.injEq,reduceCtorEq,List.not_mem_nil,or_false,false_or] at member
  rcases member with rfl | rfl | rfl <;> decide

-- With two PEs, __pSync takes eight bytes and the first block of the user comes behind it.
theorem first_block_misaligned : ¬ ∀ (libc : Libc) (region : Region) (nPes : Nat) (pe qe : Symmetric) (calls : List Call),
    4096 ∣ region.base → (libc.prior 0).next = none → commWireup libc region nPes = some pe →
    (symmetric libc).run pe calls = some qe → Aligned qe.returned := by
  intro claim
  have returned : ((commWireup scattered ⟨4096,64,by decide⟩ 2).bind fun pe => (symmetric scattered).run pe [.malloc 8]).map
      Symmetric.returned = some [some 4104] := by
    decide +kernel
  obtain ⟨qe,both,same⟩ := Option.map_eq_some_iff.mp returned
  obtain ⟨pe,started,ran⟩ := Option.bind_eq_some_iff.mp both
  have aligned := claim _ _ 2 pe qe _ (by decide) rfl started ran
  rw [same] at aligned
  exact absurd (aligned 4104 (by simp)) (by decide)

end OpenShmem
