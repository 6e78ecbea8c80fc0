import OpenShmem.Comm.Liveness
import OpenShmem.Memory.Capacity
import OpenShmem.Memory.SharedHeap
import OpenShmem.Memory.Symmetry

namespace OpenShmem
open Relational

-- What the applications call together, all of them in the same order: shmem_malloc and
-- shmem_free, or shmem_sync_all alone.
inductive Item where
  | heap (op : Collective)
  | sync
deriving DecidableEq, Repr

-- Where an application is in such a call: in none, behind comm_heap_malloc or
-- comm_heap_free, or in shmem_sync_all.
inductive Standing where
  | outside
  | prepared
  | waiting
deriving DecidableEq, Repr

structure TeamJob extends Cluster where
  linked : toCluster.WiredUp
  items : List Item
  libc : Nat → Libc
  region : Nat → Region

-- The system with the symmetric heaps. `begun` counts the collective calls of a PE.
structure Team where
  system : System
  heaps : Nat → Symmetric
  begun : Nat → Nat
  standing : Nat → Standing

inductive TeamEvent where
  | begin (me : Nat)
  | run (event : Event)
deriving DecidableEq

def heapOps (items : List Item) : List Collective := items.filterMap fun item =>
  match item with
  | .heap op => some op
  | .sync => none

def Collective.results : Collective → Nat
  | .malloc _ => 1
  | .free _ => 0

-- How often shmem_malloc is called.
def mallocs (ops : List Collective) : Nat := Totals.along Collective.results ops

-- The calls of a PE's heap that its first collective calls make.
def TeamJob.calls (job : TeamJob) (me count : Nat) : List Call :=
  (heapOps (job.items.take count)).map (Collective.on (job.region me).base)

-- While it is in a collective call an application does nothing else, and it calls
-- comm_barrier_all in one only.
def Event.Admitted (standing : Standing) : Event → Prop
  | .put _ _ _ _ _ => standing = .outside
  | .putNbi _ _ _ _ => standing = .outside
  | .sync _ _ => standing ≠ .outside
  | _ => True

instance (standing : Standing) : (event : Event) → Decidable (event.Admitted standing)
  | .put _ _ _ _ _ => inferInstanceAs (Decidable (standing = .outside))
  | .putNbi _ _ _ _ => inferInstanceAs (Decidable (standing = .outside))
  | .sync _ _ => inferInstanceAs (Decidable (standing ≠ .outside))
  | .dequeue _ => inferInstanceAs (Decidable True)
  | .execute _ _ _ => inferInstanceAs (Decidable True)
  | .send _ _ => inferInstanceAs (Decidable True)
  | .receive _ _ _ => inferInstanceAs (Decidable True)

def Event.standing (t : System) (standing : Standing) : Event → Standing
  | .sync me _ => if (t.pes me).returns = (t.pes me).calls then .outside else .waiting
  | _ => standing

namespace Team

def heapPart (job : TeamJob) (s : Team) (me : Nat) : Item → Option Symmetric
  | .heap op => (s.heaps me).call (job.libc me) (op.on (job.region me).base)
  | .sync => some (s.heaps me)

def begin (job : TeamJob) (s : Team) (me : Nat) : Option Team := do
  let item ← job.items[s.begun me]?
  let heap ← s.heapPart job me item
  return {s with
    heaps := Function.update s.heaps me heap
    begun := Function.update s.begun me (s.begun me + 1)
    standing := Function.update s.standing me .prepared}

def step (job : TeamJob) (s : Team) : TeamEvent → Option Team
  | .begin me => if me < job.n ∧ s.standing me = .outside then s.begin job me else none
  | .run event =>
    if event.Admitted (s.standing event.me) then do
      let system ← s.system.step job.toCluster event
      return {s with
        system := system
        standing := Function.update s.standing event.me (event.standing system (s.standing event.me))}
    else none

-- Behind comm_wireup, with __pSync in each heap.
def start (heaps : Nat → Symmetric) : Team := ⟨.start,heaps,fun _ => 0,fun _ => .outside⟩

end Team

def teams (job : TeamJob) : Guarded.Machine Team TeamEvent := ⟨Team.step job⟩

-- The conditions on the steps: of the network and of the puts, and that no bucket walk of
-- a heap stops at a misfiled node.
def Cooperates (job : TeamJob) (s : Team) : TeamEvent → Prop
  | .begin me =>
    match job.items[s.begun me]? with
    | some (.heap op) => Unmixed (job.libc me) (s.heaps me).session (op.on (job.region me).base)
    | _ => True
  | .run event => (Reliable job.toCluster s.system event ∧ PayloadFound event) ∧ Beside job.toCluster event

instance (job : TeamJob) (s : Team) : (event : TeamEvent) → Decidable (Cooperates job s event)
  | .begin me =>
    match next : job.items[s.begun me]? with
    | some (.heap op) => decidable_of_iff
        (Unmixed (job.libc me) (s.heaps me).session (op.on (job.region me).base)) (by simp only [Cooperates,next])
    | some .sync => isTrue (by simp only [Cooperates,next])
    | none => isTrue (by simp only [Cooperates,next])
  | .run event => inferInstanceAs (Decidable
      ((Reliable job.toCluster s.system event ∧ PayloadFound event) ∧ Beside job.toCluster event))

-- Regions of one size, and the assumptions on libc malloc.
structure Matching (job : TeamJob) : Prop where
  sizes : ∀ i j, (job.region i).size = (job.region j).size
  clean : ∀ i, ((job.libc i).prior 0).next = none
  places : ∀ i, PlacesOutside (job.libc i) (job.region i).base (job.region i).size

section Heaps
variable {libc libc' : Libc} {region region' : Region} {s t : Session} {pe pe' qe qe' : Symmetric}
  {op : Collective} {ops : List Collective} {base nPes : Nat}

theorem call_results (called : s.call libc (op.on base) = some t) :
    ∃ more : List (Option Nat), t.results = s.results ++ more ∧ more.length = op.results := by
  cases op with
  | malloc bytes =>
    obtain ⟨⟨store,heap,result⟩,_,same⟩ := Option.bind_eq_some_iff.mp called
    cases same
    exact ⟨[result],rfl,rfl⟩
  | free offset =>
    obtain ⟨⟨store,heap⟩,_,same⟩ := Option.bind_eq_some_iff.mp called
    cases same
    exact ⟨[],by simp,rfl⟩

-- The relation of two PEs' heaps says nothing about what is live.
theorem Twins.congr {s t u v : Session} (twins : Twins region region' s t) (store : s.store = u.store) (heap : s.heap = u.heap)
    (made : s.made = u.made) (results : s.results = u.results) (store' : t.store = v.store) (heap' : t.heap = v.heap)
    (made' : t.made = v.made) (results' : t.results = v.results) : Twins region region' u v := by
  obtain ⟨same,⟨cells,layout⟩,heaps,offsets⟩ := twins
  refine ⟨made.symm.trans (same.trans made'),⟨cells,layout.congr store heap made⟩,?_,?_⟩
  · rw [← store,← heap,← made,← store',← heap']
    exact heaps
  · unfold Session.offsets at offsets ⊢
    rw [← results,← heap,← results',← heap']
    exact offsets

-- The first heap_malloc of a heap finds an empty map.
theorem start_unmixed (region : Region) (clean : (libc.prior 0).next = none) (bytes : Nat) :
    Unmixed libc (Session.start libc region) (.malloc bytes) := by
  have wf := (start_layout region clean).wf
  have unlisted := (start_layout region clean).unlisted
  have allocated : WellFormed (allocate libc (Session.start libc region).store (Session.start libc region).made bytes)
      (Session.start libc region).heap ([] ++ (0,⟨region.base,0⟩) :: []) := wf.allocate libc bytes unlisted
  rintro found searched head rfl block stored
  obtain ⟨before,x,after,split,_⟩ := findBlock_sound allocated allocated.cursor searched
  have alone : before = [] ∧ (0,⟨region.base,0⟩) = (head,x) ∧ after = [] := by
    cases before with
    | nil =>
      obtain ⟨here,rest⟩ := List.cons.inj split
      exact ⟨rfl,here,rest.symm⟩
    | cons first before =>
      obtain ⟨_,rest⟩ := List.cons.inj split
      simp at rest
  obtain ⟨rfl,same,rfl⟩ := alone
  cases same
  have located := allocated.block_at
  rw [stored] at located
  cases located
  refine ⟨fun next linked => (by cases linked),fun filed update => ?_⟩
  cases update
  exact trivial

theorem wireup_twins (sizes : region.size = region'.size) (clean : (libc.prior 0).next = none) (clean' : (libc'.prior 0).next = none)
    (places : PlacesOutside libc region.base region.size) (places' : PlacesOutside libc' region'.base region'.size)
    (one : commWireup libc region nPes = some pe) (two : commWireup libc' region' nPes = some qe) :
    Twins region region' pe.session qe.session := by
  obtain ⟨none,s,called,store,heap,made⟩ := commWireup_session one
  obtain ⟨none',t,called',store',heap',made'⟩ := commWireup_session two
  have both := call_twins (start_twins region region' sizes clean clean') places (sizes ▸ places') (.malloc (4 * nPes))
    (start_unmixed region clean _) (start_unmixed region' clean' _)
  simp only [Collective.on] at both
  rw [called,called'] at both
  obtain ⟨twins⟩ := both
  refine ⟨made.symm.trans (twins.made.trans made'),?_,?_,?_⟩
  · obtain ⟨cells,layout⟩ := twins.layout
    exact ⟨cells,layout.congr store heap made⟩
  · have heaps := twins.heaps
    rw [store,heap,made,store',heap'] at heaps
    exact heaps
  · simp [Session.offsets,Symmetric.session,none,none']

theorem symmetric_twins (places : PlacesOutside libc region.base region.size) (places' : PlacesOutside libc' region'.base region.size)
    (twins : Twins region region' pe.session qe.session)
    (met : (symmetric libc).Meets (fun pe call => Unmixed libc pe.session call) pe (ops.map (Collective.on region.base)))
    (met' : (symmetric libc').Meets (fun pe call => Unmixed libc' pe.session call) qe (ops.map (Collective.on region'.base)))
    (ran : (symmetric libc).run pe (ops.map (Collective.on region.base)) = some pe')
    (ran' : (symmetric libc').run qe (ops.map (Collective.on region'.base)) = some qe') :
    Twins region region' pe'.session qe'.session := by
  induction ops generalizing pe qe with
  | nil =>
    cases ran
    cases ran'
    exact twins
  | cons op ops ih =>
    obtain ⟨middle,called,later⟩ := Guarded.Machine.run_cons_some ran
    obtain ⟨middle',called',later'⟩ := Guarded.Machine.run_cons_some ran'
    obtain ⟨s,below,store,heap,made,results⟩ := call_session called
    obtain ⟨t,below',store',heap',made',results'⟩ := call_session called'
    have both := call_twins twins places places' op met.1 met'.1
    rw [below,below'] at both
    obtain ⟨next⟩ := both
    have moved : Twins region region' middle.session middle'.session := next.congr store heap made results store' heap' made' results'
    exact ih moved (met.2 _ called) (met'.2 _ called') later later'

-- Calls add results, and do not move the region.
theorem symmetric_grows (ran : (symmetric libc).run pe (ops.map (Collective.on base)) = some qe) :
    ∃ more, qe.session.offsets = pe.session.offsets ++ more ∧ more.length = mallocs ops := by
  induction ops generalizing pe with
  | nil =>
    cases ran
    exact ⟨[],by simp,rfl⟩
  | cons op ops ih =>
    obtain ⟨middle,called,later⟩ := Guarded.Machine.run_cons_some ran
    obtain ⟨t,below,_,heap,_,results⟩ := call_session called
    obtain ⟨more,grown,length⟩ := call_results below
    obtain ⟨rest,last,count⟩ := ih later
    have fixed : t.heap.ptr = pe.symmetricHeap.heap.ptr := (call_fixed below).1
    have offsets : middle.session.offsets = pe.session.offsets ++ more.map (Option.map (heapOffset pe.symmetricHeap.heap)) := by
      unfold Session.offsets
      simp only [Symmetric.session] at grown ⊢
      rw [← results,grown,List.map_append,← heap,heapOffset_congr fixed]
    refine ⟨more.map (Option.map (heapOffset pe.symmetricHeap.heap)) ++ rest,by rw [last,offsets,List.append_assoc],?_⟩
    rw [List.length_append,List.length_map,length,count]
    rfl

end Heaps

section Steps
variable {job : TeamJob} {cluster : Cluster} {s t : System} {u v : Team} {event : Event} {heaps : Nat → Symmetric} {me count : Nat}

-- No step outside of comm_barrier_all calls it or returns from it.
theorem step_counts (moved : s.step cluster event = some t) (other : ∀ me prior, event ≠ .sync me prior) (p : Nat) :
    (t.pes p).calls = (s.pes p).calls ∧ (t.pes p).returns = (s.pes p).returns := by
  unfold System.step at moved
  split at moved
  · cases event with
    | put me dest src pe prior =>
      simp only [System.move] at moved
      split at moved
      · obtain ⟨_,calls,returns,_⟩ := commPut_thread moved p
        exact ⟨calls,returns⟩
      · cases moved
    | putNbi me dest size pe =>
      simp only [System.move] at moved
      split at moved
      · cases moved
        exact (setPe_thread (by rfl) (by rfl) (by rfl) p).2
      · cases moved
    | sync me prior => exact False.elim (other me prior rfl)
    | dequeue me =>
      simp only [System.move] at moved
      split at moved
      · cases moved
        exact (setPe_thread (by rfl) (by rfl) (by rfl) p).2
      · cases moved
    | execute me contents prior =>
      obtain ⟨work,_,ran⟩ := Option.bind_eq_some_iff.mp moved
      obtain ⟨_,before⟩ : ((s.setPe me {s.pes me with busy := none}).pes p).pc = (s.pes p).pc ∧
          ((s.setPe me {s.pes me with busy := none}).pes p).calls = (s.pes p).calls ∧
          ((s.setPe me {s.pes me with busy := none}).pes p).returns = (s.pes p).returns :=
        setPe_thread (by rfl) (by rfl) (by rfl) p
      unfold System.execute at ran
      split at ran
      · split at ran
        · obtain ⟨_,calls,returns,_⟩ := commPut_thread ran p
          exact ⟨calls.trans before.1,returns.trans before.2⟩
        · cases ran
      · cases ran
        exact before
    | send me result =>
      obtain ⟨_,_,made⟩ := Option.bind_eq_some_iff.mp moved
      obtain ⟨_,_,written⟩ := Option.bind_eq_some_iff.mp made
      split at written
      · cases written
        exact (setPe_thread (s := s) (by rfl) (by rfl) (by rfl) p).2
      · cases written
    | receive me index reads =>
      obtain ⟨_,_,received⟩ := Option.bind_eq_some_iff.mp moved
      obtain ⟨_,_,made⟩ := Option.bind_eq_some_iff.mp received
      cases made
      exact (setPe_thread (s := s) (by rfl) (by rfl) (by rfl) p).2
  · cases moved

-- A step in comm_barrier_all is its call, its return, or neither.
theorem sync_counts (signalled : Signalled cluster s) (moved : s.step cluster (.sync me prior) = some t) :
    ((s.pes me).returns = (s.pes me).calls ∧ (t.pes me).calls = (s.pes me).calls + 1 ∧ (t.pes me).returns = (s.pes me).returns) ∨
    ((s.pes me).calls = (s.pes me).returns + 1 ∧ (t.pes me).calls = (s.pes me).calls ∧
      ((t.pes me).returns = (s.pes me).returns ∨ (t.pes me).returns = (s.pes me).returns + 1)) := by
  have inside : me < cluster.n := step_inside moved
  obtain ⟨b,abstracts,balanced,_⟩ := signalled.barrier
  have returned := balanced.returned me inside
  rw [abstracts.pc,abstracts.calls,abstracts.returns] at returned
  unfold System.step at moved
  rw [if_pos (show (Event.sync me prior).me < cluster.n from inside)] at moved
  obtain ⟨⟨next,effect⟩,ran,performed⟩ := Option.bind_eq_some_iff.mp moved
  obtain ⟨_,calls,returns,_⟩ := perform_thread performed me
  simp only [pes_setPe,Function.update_self,if_true] at calls returns
  by_cases outside : (s.pes me).pc = .outside
  · rw [if_pos outside] at returned
    rw [outside] at ran
    cases ran
    exact Or.inl ⟨returned,calls,returns⟩
  · rw [if_neg outside] at returned
    refine Or.inr ⟨returned.symm,?_⟩
    cases effect with
    | call => exact False.elim (outside (call_outside ran))
    | ret => exact ⟨calls,Or.inr returns⟩
    | _ => exact ⟨calls,Or.inl returns⟩

-- What the standing of an application says about its counts.
def Placed (begun : Nat) (pe : Pe) : Standing → Prop
  | .outside => begun = pe.calls ∧ pe.returns = pe.calls
  | .prepared => begun = pe.calls + 1 ∧ pe.returns = pe.calls
  | .waiting => begun = pe.calls ∧ pe.calls = pe.returns + 1

-- Each PE's heap is what its first calls made of the one it started with.
structure Underway (job : TeamJob) (heaps : Nat → Symmetric) (s : Team) : Prop where
  placed : ∀ p, Placed (s.begun p) (s.system.pes p) (s.standing p)
  ran : ∀ p, (symmetric (job.libc p)).run (heaps p) (job.calls p (s.begun p)) = some (s.heaps p)

structure Together (job : TeamJob) (heaps : Nat → Symmetric) (s : Team) : Prop extends Underway job heaps s where
  signalled : Signalled job.toCluster s.system
  clear : ∀ p, (symmetric (job.libc p)).Meets (fun pe call => Unmixed (job.libc p) pe.session call) (heaps p)
    (job.calls p (s.begun p))

theorem Placed.congr {begun : Nat} {pe qe : Pe} {standing : Standing} (placed : Placed begun pe standing)
    (calls : qe.calls = pe.calls) (returns : qe.returns = pe.returns) : Placed begun qe standing := by
  cases standing <;> simpa only [Placed,calls,returns] using placed

theorem sync_placed (signalled : Signalled cluster s) (moved : s.step cluster (.sync me prior) = some t)
    (admitted : standing ≠ .outside) (placed : Placed begun (s.pes me) standing) :
    Placed begun (t.pes me) ((Event.sync me prior).standing t standing) := by
  simp only [Event.standing]
  rcases sync_counts signalled moved with ⟨free,calls,returns⟩ | ⟨busy,calls,same | more⟩
  · rw [if_neg (by omega)]
    cases standing with
    | outside => exact False.elim (admitted rfl)
    | prepared =>
      simp only [Placed] at placed ⊢
      omega
    | waiting =>
      simp only [Placed] at placed
      omega
  · rw [if_neg (by omega)]
    cases standing with
    | outside => exact False.elim (admitted rfl)
    | prepared =>
      simp only [Placed] at placed
      omega
    | waiting =>
      simp only [Placed] at placed ⊢
      omega
  · rw [if_pos (by omega)]
    cases standing with
    | outside => exact False.elim (admitted rfl)
    | prepared =>
      simp only [Placed] at placed
      omega
    | waiting =>
      simp only [Placed] at placed ⊢
      omega

theorem step_placed (signalled : Signalled job.toCluster u.system) (underway : Underway job heaps u) (admitted : event.Admitted (u.standing event.me))
    (moved : u.system.step job.toCluster event = some t) (p : Nat) : Placed (u.begun p) (t.pes p)
      (Function.update u.standing event.me (event.standing t (u.standing event.me)) p) := by
  by_cases here : p = event.me
  · subst p
    rw [Function.update_self]
    cases event with
    | sync me prior => exact sync_placed signalled moved admitted (underway.placed me)
    | _ =>
      obtain ⟨calls,returns⟩ := step_counts moved (by intro _ _ same; cases same) _
      exact (underway.placed _).congr calls returns
  · rw [Function.update_of_ne here,step_elsewhere moved here]
    exact underway.placed p

theorem calls_heap (next : job.items[count]? = some (.heap op)) :
    job.calls me (count+1) = job.calls me count ++ [op.on (job.region me).base] := by
  simp [TeamJob.calls,heapOps,List.take_add_one,next]

theorem calls_sync (next : job.items[count]? = some .sync) : job.calls me (count+1) = job.calls me count := by
  simp [TeamJob.calls,heapOps,List.take_add_one,next]

theorem calls_since (before : count ≤ later) : job.calls me later = job.calls me count ++
    (heapOps ((job.items.drop count).take (later - count))).map (Collective.on (job.region me).base) := by
  obtain ⟨more,rfl⟩ := Nat.exists_eq_add_of_le before
  rw [Nat.add_sub_cancel_left]
  simp [TeamJob.calls,heapOps,List.take_add]

theorem begin_ran (underway : Underway job heaps u) (next : job.items[u.begun me]? = some item)
    (called : u.heapPart job me item = some heap) :
    (symmetric (job.libc me)).run (heaps me) (job.calls me (u.begun me + 1)) = some heap := by
  have ran := underway.ran me
  cases item with
  | sync =>
    cases called
    rw [calls_sync next]
    exact ran
  | heap op =>
    have stepped : (symmetric (job.libc me)).step (u.heaps me) (op.on (job.region me).base) = some heap := called
    rw [calls_heap next,Guarded.Machine.run_append,ran,Option.bind_some,Guarded.Machine.run_cons,stepped]
    rfl

theorem begin_clear (together : Together job heaps u) (next : job.items[u.begun me]? = some item)
    (cooperates : Cooperates job u (.begin me)) :
    (symmetric (job.libc me)).Meets (fun pe call => Unmixed (job.libc me) pe.session call) (heaps me)
      (job.calls me (u.begun me + 1)) := by
  cases item with
  | sync =>
    rw [calls_sync next]
    exact together.clear me
  | heap op =>
    simp only [Cooperates,next] at cooperates
    rw [calls_heap next]
    refine (Guarded.Machine.meets_append _ _).mpr ⟨together.clear me,fun pe reached => ?_⟩
    obtain rfl := Option.some.inj ((together.ran me).symm.trans reached)
    exact ⟨cooperates,fun _ _ => trivial⟩

theorem begin_cases (moved : u.step job (.begin me) = some v) : ∃ item heap, me < job.n ∧ u.standing me = .outside ∧
    job.items[u.begun me]? = some item ∧ u.heapPart job me item = some heap ∧
    v = {u with
      heaps := Function.update u.heaps me heap
      begun := Function.update u.begun me (u.begun me + 1)
      standing := Function.update u.standing me .prepared} := by
  simp only [Team.step] at moved
  split at moved
  · rename_i free
    obtain ⟨item,next,rest⟩ := Option.bind_eq_some_iff.mp moved
    obtain ⟨heap,called,made⟩ := Option.bind_eq_some_iff.mp rest
    cases made
    exact ⟨item,heap,free.1,free.2,next,called,rfl⟩
  · cases moved

theorem run_cases (moved : u.step job (.run event) = some v) : ∃ system, event.Admitted (u.standing event.me) ∧
    u.system.step job.toCluster event = some system ∧
    v = {u with
      system := system
      standing := Function.update u.standing event.me (event.standing system (u.standing event.me))} := by
  simp only [Team.step] at moved
  split at moved
  · rename_i admitted
    obtain ⟨system,stepped,made⟩ := Option.bind_eq_some_iff.mp moved
    cases made
    exact ⟨system,admitted,stepped,rfl⟩
  · cases moved

theorem step_underway {event : TeamEvent} (signalled : Signalled job.toCluster u.system) (underway : Underway job heaps u)
    (moved : u.step job event = some v) : Underway job heaps v := by
  cases event with
  | begin me =>
    obtain ⟨item,heap,_,free,next,called,rfl⟩ := begin_cases moved
    constructor
    · intro p
      have placed := underway.placed p
      by_cases here : p = me
      · subst p
        rw [free] at placed
        simp only [Function.update_self,Placed] at placed ⊢
        omega
      · simp only [Function.update_of_ne here]
        exact placed
    · intro p
      by_cases here : p = me
      · subst p
        simp only [Function.update_self]
        exact begin_ran underway next called
      · simp only [Function.update_of_ne here]
        exact underway.ran p
  | run event =>
    obtain ⟨system,admitted,stepped,rfl⟩ := run_cases moved
    exact ⟨step_placed signalled underway admitted stepped,underway.ran⟩

theorem step_together {event : TeamEvent} (together : Together job heaps u) (cooperates : Cooperates job u event)
    (moved : u.step job event = some v) : Together job heaps v := by
  have underway := step_underway together.signalled together.toUnderway moved
  cases event with
  | begin me =>
    obtain ⟨item,heap,_,_,next,_,rfl⟩ := begin_cases moved
    refine ⟨underway,together.signalled,?_⟩
    intro p
    by_cases here : p = me
    · subst p
      simp only [Function.update_self]
      exact begin_clear together next cooperates
    · simp only [Function.update_of_ne here]
      exact together.clear p
  | run event =>
    obtain ⟨system,_,stepped,rfl⟩ := run_cases moved
    obtain ⟨⟨reliable,found⟩,beside⟩ := cooperates
    exact ⟨underway,step_signalled together.signalled reliable found beside stepped,together.clear⟩

theorem start_underway (job : TeamJob) (heaps : Nat → Symmetric) : Underway job heaps (Team.start heaps) :=
  ⟨fun _ => ⟨rfl,rfl⟩,fun _ => rfl⟩

theorem start_together (job : TeamJob) (heaps : Nat → Symmetric) : Together job heaps (Team.start heaps) :=
  ⟨start_underway job heaps,(start_completing job.linked).signalled,fun _ => trivial⟩

end Steps

-- What the PEs may rely on in the symmetric heap: when one has returned from a collective
-- call, each has made the same allocations up to it, at the same offsets.
structure Collected (job : TeamJob) (s : Team) : Prop where
  begun : ∀ i < job.n, ∀ j < job.n, (s.system.pes i).returns ≤ s.begun j
  single : ∀ p, (s.system.pes p).returns ≤ s.begun p ∧ s.begun p ≤ (s.system.pes p).returns + 1
  agreed : ∀ i < job.n, ∀ j < job.n, ∃ offsets, offsets.length = mallocs (heapOps (job.items.take (s.system.pes i).returns)) ∧
    offsets <+: (s.heaps i).session.offsets ∧ offsets <+: (s.heaps j).session.offsets

variable {job : TeamJob} {s : Team} {heaps : Nat → Symmetric}

theorem Underway.single (underway : Underway job heaps s) (p : Nat) :
    (s.system.pes p).returns ≤ s.begun p ∧ s.begun p ≤ (s.system.pes p).returns + 1 ∧ (s.system.pes p).calls ≤ s.begun p := by
  have placed := underway.placed p
  cases standing : s.standing p <;> rw [standing] at placed <;> simp only [Placed] at placed <;> omega

-- The heap of a PE as it was after the first `count` collective calls.
theorem Together.since (together : Together job heaps s) (before : count ≤ s.begun me) :
    ∃ pe, (symmetric (job.libc me)).run (heaps me) (job.calls me count) = some pe ∧
      (symmetric (job.libc me)).Meets (fun pe call => Unmixed (job.libc me) pe.session call) (heaps me) (job.calls me count) ∧
      pe.session.offsets <+: (s.heaps me).session.offsets := by
  have ran := together.ran me
  have clear := together.clear me
  rw [calls_since before] at ran clear
  rw [Guarded.Machine.run_append] at ran
  obtain ⟨pe,first,second⟩ := Option.bind_eq_some_iff.mp ran
  obtain ⟨grown,offsets,_⟩ := symmetric_grows second
  exact ⟨pe,first,((Guarded.Machine.meets_append _ _).mp clear).1,⟨grown,offsets.symm⟩⟩

-- In every interleaving of the applications' collective calls with the threads that carry
-- the barrier's signals and the puts.
theorem collectives_agree (job : TeamJob) (matching : Matching job)
    (wired : ∀ p, commWireup (job.libc p) (job.region p) job.n = some (heaps p)) (events : List TeamEvent)
    (meets : (teams job).Meets (Cooperates job) (Team.start heaps) events)
    (ran : (teams job).run (Team.start heaps) events = some s) : Collected job s := by
  have together : Together job heaps s := Guarded.Machine.run_keeps
    (fun _ _ _ together cooperates moved => step_together together cooperates moved) (start_together job heaps) meets ran
  have begun : ∀ i < job.n, ∀ j < job.n, (s.system.pes i).returns ≤ s.begun j := by
    intro i insideI j insideJ
    exact Nat.le_trans (together.signalled.syncSafe.order i insideI j insideJ) (together.single j).2.2
  refine ⟨begun,fun p => ⟨(together.single p).1,(together.single p).2.1⟩,?_⟩
  intro i insideI j insideJ
  obtain ⟨pe,here,clear,prefixed⟩ := together.since (begun i insideI i insideI)
  obtain ⟨qe,there,clear',prefixed'⟩ := together.since (begun i insideI j insideJ)
  have places : PlacesOutside (job.libc j) (job.region j).base (job.region i).size := matching.sizes j i ▸ matching.places j
  have first : Twins (job.region i) (job.region j) (heaps i).session (heaps j).session :=
    wireup_twins (matching.sizes i j) (matching.clean i) (matching.clean j) (matching.places i) (matching.places j)
      (wired i) (wired j)
  have twins := symmetric_twins (matching.places i) places first clear clear' here there
  obtain ⟨more,grown,length⟩ := symmetric_grows here
  have none : (heaps i).session.offsets = [] := by
    unfold Session.offsets
    simp [Symmetric.session,(commWireup_session (wired i)).1]
  rw [none,List.nil_append] at grown
  exact ⟨more,length,grown ▸ prefixed,by rw [← grown,twins.offsets]; exact prefixed'⟩

def closeTeam : TeamJob := {closeCluster with
  linked := close_wired
  items := [.heap (.malloc 8)]
  libc _ := ⟨fun n => 65536 + 32 * n,fun _ => ⟨7,7,none⟩⟩
  region _ := ⟨4096,64,by decide⟩}

-- PE 0 has returned from shmem_malloc, and PE 1 waits in it.
theorem collectives_agree_two : ∃ heaps s, (teams closeTeam).run (Team.start heaps)
      ([.begin 0,.begin 1] ++ [1,1,0,0,0,0,0].map fun me => .run (.sync me 0)) = some s ∧
    (s.system.pes 0).returns = 1 ∧ Collected closeTeam s := by
  let heaps : Nat → Symmetric := fun _ => (commWireup (closeTeam.libc 0) (closeTeam.region 0) 2).get (by decide +kernel)
  let events : List TeamEvent := [.begin 0,.begin 1] ++ [1,1,0,0,0,0,0].map fun me => .run (.sync me 0)
  have returned : ((teams closeTeam).run (Team.start heaps) events).map (fun s => (s.system.pes 0).returns) = some 1 := by
    decide +kernel
  have meets : (teams closeTeam).Meets (Cooperates closeTeam) (Team.start heaps) events := by decide +kernel
  obtain ⟨s,ran,one⟩ := Option.map_eq_some_iff.mp returned
  have matching : Matching closeTeam := by
    refine ⟨fun _ _ => rfl,fun _ => rfl,fun _ n => Or.inr ?_⟩
    exact Nat.lt_of_lt_of_le (by decide : 4096 + 64 < 65536) (Nat.le_add_right 65536 _)
  exact ⟨heaps,s,ran,one,collectives_agree closeTeam matching (fun _ => (Option.some_get _).symm) events meets ran⟩

end OpenShmem
