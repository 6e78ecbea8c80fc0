import OpenShmem.Memory.Capacity
import OpenShmem.Memory.Safety
import OpenShmem.Memory.SharedHeap
import OpenShmem.Memory.Symmetry

namespace OpenShmem
open Linked Extents Relational

-- The live allocations by their offsets in the heap.
def Session.holdings (s : Session) : List (Nat × Nat) := s.live.map fun block => (block.1 - s.heap.ptr,block.2)

-- A call that a program may make on every PE: within the users' contract, and where the
-- map is sound and treats the PEs alike.
def Lawful (libc : Libc) (s : Session) (call : Call) : Prop := (Allowed s call ∧ Sound libc s call) ∧ Unmixed libc s call

instance (libc : Libc) (s : Session) (call : Call) : Decidable (Lawful libc s call) :=
  inferInstanceAs (Decidable ((Allowed s call ∧ Sound libc s call) ∧ Unmixed libc s call))

variable {libc libc' : Libc} {region region' : Region} {s t s' t' : Session} {op : Collective} {ops : List Collective}
  {block other : Nat × Nat} {bytes offset : Nat}

-- Every live allocation is a block of its own behind the heap's base.
theorem Kept.placed (kept : Kept s) (member : block ∈ s.live) :
    s.heap.ptr ≤ block.1 ∧ block.1 + block.2 ≤ s.heap.ptr + s.heap.size := by
  obtain ⟨cells,layout,ledger⟩ := kept
  exact (ledger.safe layout).inside block member

theorem Kept.apart (kept : Kept s) (one : block ∈ s.holdings) (two : other ∈ s.holdings) (different : block ≠ other) :
    Apart block other := by
  obtain ⟨here,first,rfl⟩ := List.mem_map.mp one
  obtain ⟨there,second,rfl⟩ := List.mem_map.mp two
  have above := (kept.placed first).1
  have beyond := (kept.placed second).1
  obtain ⟨cells,layout,ledger⟩ := kept
  obtain ⟨_,d,listed⟩ := ledger.listed here first
  obtain ⟨_,e,also⟩ := ledger.listed there second
  have addresses : here.1 ≠ there.1 := by
    intro same
    have equal := List.inj_on_of_nodup_map ledger.once first second same
    exact different (by rw [equal])
  have apart := live_apart layout.wf listed also addresses
  simp only [Apart] at apart ⊢
  omega

-- A shmem_malloc adds what it returned, if it returned something.
theorem holdings_malloc (kept : Kept s) (called : s.call libc (.malloc bytes) = some t) :
    (t.holdings = s.holdings ∧ t.results = s.results ++ [none]) ∨
    ∃ p, t.holdings = s.holdings ++ [(p - s.heap.ptr,bytes)] ∧ t.results = s.results ++ [some p] ∧ (p,bytes) ∈ t.live := by
  obtain ⟨cells,layout,_⟩ := kept
  have ptr := (call_fixed called).1
  unfold Session.holdings
  rcases malloc_layout layout called with ⟨live,results,_⟩ | ⟨_,_,_,_,_,live,results,_⟩
  · exact Or.inl ⟨by rw [live,ptr],results⟩
  · refine Or.inr ⟨_,?_,results,?_⟩
    · rw [live,ptr,List.map_append]
      rfl
    · rw [live]
      exact List.mem_append_right _ (List.mem_singleton.mpr rfl)

-- A shmem_free drops the allocation at its offset.
theorem holdings_free (kept : Kept s) (called : s.call libc (.free (s.heap.ptr + offset)) = some t) :
    t.holdings = s.holdings.filter (·.1 ≠ offset) := by
  have ptr := (call_fixed called).1
  have live : t.live = s.live.filter (·.1 ≠ s.heap.ptr + offset) := by
    obtain ⟨cells,layout,_⟩ := kept
    exact (free_layout layout called).1
  unfold Session.holdings
  rw [live,ptr,List.filter_map]
  refine congrArg _ (List.filter_congr fun block member => ?_)
  have above := (kept.placed member).1
  simp only [Function.comp_apply,decide_eq_decide]
  omega

-- Two PEs' heaps that hold the same.
structure Partners (region region' : Region) (s t : Session) : Prop where
  twins : Twins region region' s t
  kept : Kept s
  kept' : Kept t
  holdings : s.holdings = t.holdings

theorem Twins.bases (twins : Twins region region' s t) : (s.heap.ptr = region.base ∧ s.heap.size = region.size) ∧
    t.heap.ptr = region'.base ∧ t.heap.size = region.size := by
  obtain ⟨kept,_,heaps⟩ := twins.heaps
  exact ⟨heaps.here,heaps.there⟩

-- What heap_malloc returns is told by its offset.
theorem offset_exact {heap : Heap} {p : Nat} (fits : heap.ptr + heap.size < 2^64) (above : heap.ptr ≤ p)
    (below : p ≤ heap.ptr + heap.size) : heapOffset heap p = p - heap.ptr := by
  unfold heapOffset sizeT
  omega

theorem partners_call (sizes : region.size = region'.size) (places : PlacesOutside libc region.base region.size)
    (places' : PlacesOutside libc' region'.base region'.size) (partners : Partners region region' s t)
    (lawful : Lawful libc s (op.on region.base)) (lawful' : Lawful libc' t (op.on region'.base))
    (called : s.call libc (op.on region.base) = some s') (called' : t.call libc' (op.on region'.base) = some t') :
    Partners region region' s' t' := by
  obtain ⟨twins,kept,kept',holdings⟩ := partners
  have after : Twins region region' s' t' := by
    have both := call_twins twins places (sizes ▸ places') op lawful.2 lawful'.2
    rw [called,called'] at both
    cases both with
    | some related => exact related
  have later := call_kept kept lawful.1.1 lawful.1.2 called
  have later' := call_kept kept' lawful'.1.1 lawful'.1.2 called'
  refine ⟨after,later,later',?_⟩
  obtain ⟨⟨ptr,size⟩,ptr',size'⟩ := twins.bases
  cases op with
  | free offset =>
    simp only [Collective.on] at called called'
    rw [← ptr] at called
    rw [← ptr'] at called'
    rw [holdings_free kept called,holdings_free kept' called',holdings]
  | malloc bytes =>
    have offsets := after.offsets
    have before := twins.offsets
    unfold Session.offsets at offsets before
    rw [heapOffset_congr (call_fixed called).1,heapOffset_congr (call_fixed called').1] at offsets
    rcases holdings_malloc kept called with ⟨same,results⟩ | ⟨p,more,results,member⟩
    · rcases holdings_malloc kept' called' with ⟨same',_⟩ | ⟨q,_,results',_⟩
      · rw [same,same',holdings]
      · rw [results,results'] at offsets
        simp [before] at offsets
    · rcases holdings_malloc kept' called' with ⟨_,results'⟩ | ⟨q,more',results',member'⟩
      · rw [results,results'] at offsets
        simp [before] at offsets
      · rw [results,results'] at offsets
        simp only [List.map_append,before,List.map_cons,List.map_nil,Option.map_some,List.append_cancel_left_eq,
          List.cons.injEq,Option.some.injEq,and_true] at offsets
        have inside := later.placed member
        have inside' := later'.placed member'
        rw [(call_fixed called).1,(call_fixed called).2.1] at inside
        rw [(call_fixed called').1,(call_fixed called').2.1] at inside'
        have fits := region.fits
        have fits' := region'.fits
        rw [offset_exact (by omega) inside.1 (by omega),offset_exact (by omega) inside'.1 (by omega)] at offsets
        rw [more,more',holdings,offsets]

theorem start_partners (sizes : region.size = region'.size) (clean : (libc.prior 0).next = none)
    (clean' : (libc'.prior 0).next = none) : Partners region region' (Session.start libc region) (Session.start libc' region') :=
  ⟨start_twins region region' sizes clean clean',start_kept region clean,start_kept region' clean',rfl⟩

-- One program of collective calls leaves two PEs with the same holdings.
theorem partners_run (sizes : region.size = region'.size) (places : PlacesOutside libc region.base region.size)
    (places' : PlacesOutside libc' region'.base region'.size) (partners : Partners region region' s t)
    (meets : (sessions libc).Meets (Lawful libc) s (ops.map (Collective.on region.base)))
    (meets' : (sessions libc').Meets (Lawful libc') t (ops.map (Collective.on region'.base)))
    (ran : (sessions libc).run s (ops.map (Collective.on region.base)) = some s')
    (ran' : (sessions libc').run t (ops.map (Collective.on region'.base)) = some t') : Partners region region' s' t' := by
  induction ops generalizing s t with
  | nil =>
    cases ran
    cases ran'
    exact partners
  | cons op ops ih =>
    obtain ⟨middle,called,later⟩ := Guarded.Machine.run_cons_some ran
    obtain ⟨middle',called',later'⟩ := Guarded.Machine.run_cons_some ran'
    have next := partners_call sizes places places' partners meets.1 meets'.1 called called'
    exact ih next (meets.2 _ called) (meets'.2 _ called') later later'

-- A session that tells what a PE's symmetric heap holds.
structure Describes (s : Session) (pe : Symmetric) : Prop where
  store : s.store = pe.store
  heap : s.heap = pe.symmetricHeap.heap
  made : s.made = pe.made

theorem describes_call {pe qe : Symmetric} {call : Call} (describes : Describes s pe) (called : pe.call libc call = some qe) :
    ∃ t, s.call libc call = some t ∧ Describes t qe := by
  obtain ⟨u,below,store,heap,made,_⟩ := call_session called
  obtain ⟨sameStore,sameHeap,sameMade⟩ := describes
  cases call with
  | malloc bytes =>
    obtain ⟨⟨store',heap',result⟩,malloced,same⟩ := Option.bind_eq_some_iff.mp below
    cases same
    have mine : heapMalloc libc s.made s.store s.heap bytes = some (store',heap',result) := by
      rw [sameStore,sameHeap,sameMade]
      exact malloced
    exact ⟨_,session_malloc mine,store,heap,by rw [← made,sameMade]; rfl⟩
  | free ptr =>
    obtain ⟨⟨store',heap'⟩,freed,same⟩ := Option.bind_eq_some_iff.mp below
    cases same
    have mine : heapFree s.store s.heap ptr = some (store',heap') := by
      rw [sameStore,sameHeap]
      exact freed
    exact ⟨_,session_free mine,store,heap,by rw [← made,sameMade]; rfl⟩

theorem describes_run {pe qe : Symmetric} {calls : List Call} (describes : Describes s pe)
    (ran : (symmetric libc).run pe calls = some qe) : ∃ t, (sessions libc).run s calls = some t ∧ Describes t qe := by
  induction calls generalizing s pe with
  | nil =>
    cases ran
    exact ⟨s,rfl,describes⟩
  | cons call calls ih =>
    obtain ⟨middle,called,later⟩ := Guarded.Machine.run_cons_some ran
    obtain ⟨next,below,after⟩ := describes_call describes called
    obtain ⟨t,rest,final⟩ := ih after later
    have stepped : (sessions libc).step s call = some next := below
    exact ⟨t,by rw [Guarded.Machine.run_cons,stepped]; exact rest,final⟩

end OpenShmem
