import OpenShmem.Comm.Clients
import OpenShmem.Comm.Collectives
import OpenShmem.Comm.Ordering
import OpenShmem.Comm.Standstill

namespace OpenShmem
open ByteMemory (memcpy)

-- Where main of shmem_ring stands behind shmem_init: before and in shmem_malloc, at
-- *token = 0, in the first shmem_barrier_all, at the put and at the loop, whose order
-- depends on the PE, in the second shmem_barrier_all, and in shmem_finalize: in its
-- shmem_sync_all, at the two joins of comm_finalize, and behind them.
inductive MainPc where
  | malloc
  | allocating
  | clear
  | barrier
  | put
  | spin
  | together
  | finalize
  | joinWorker
  | joinComm
  | done
deriving DecidableEq, Repr

def MainPc.after (me : Nat) : MainPc → MainPc
  | .malloc => .allocating
  | .allocating => .clear
  | .clear => .barrier
  | .barrier => if me = 0 then .put else .spin
  | .put => if me = 0 then .spin else .together
  | .spin => if me = 0 then .together else .put
  | .together => .finalize
  | .finalize => .joinWorker
  | .joinWorker => .joinComm
  | .joinComm => .done
  | .done => .done

-- In comm_barrier_all.
def MainPc.Joins : MainPc → Prop
  | .allocating => True
  | .barrier => True
  | .together => True
  | .finalize => True
  | _ => False

instance : (pc : MainPc) → Decidable pc.Joins
  | .malloc => isFalse id
  | .allocating => isTrue trivial
  | .clear => isFalse id
  | .barrier => isTrue trivial
  | .put => isFalse id
  | .spin => isFalse id
  | .together => isTrue trivial
  | .finalize => isTrue trivial
  | .joinWorker => isFalse id
  | .joinComm => isFalse id
  | .done => isFalse id

-- The worker runs until it is joined, and so does the communication thread.
def MainPc.Working (pc : MainPc) : Prop := pc ≠ .joinComm ∧ pc ≠ .done

instance (pc : MainPc) : Decidable pc.Working := inferInstanceAs (Decidable (_ ∧ _))

structure RingJob extends ClientJob where
  fits : ∀ p, 4 * n + 4 ≤ (region p).size

def RingJob.target (job : RingJob) (me : Nat) : Nat := (me + 1) % job.n

-- The system with the heaps and each PE's `token` and place in main.
structure RingState where
  system : System
  heaps : Nat → Session
  token : Nat → Option Nat
  pc : Nat → MainPc

inductive RingEvent where
  | main (me : Nat) (prior : BitVec 64)
  | run (event : Event)
deriving DecidableEq

-- A store of a PE into its own heap.
def System.store (s : System) (me : Nat) (dest : BitVec 64) (bytes : List UInt8) : System :=
  {s with heaps := Function.update s.heaps me (memcpy (s.heaps me) dest.toNat bytes)}

namespace RingState

def go (s : RingState) (me : Nat) : RingState := {s with pc := Function.update s.pc me ((s.pc me).after me)}

def offset (s : RingState) (me token : Nat) : BitVec 64 := commLocalOffset (s.heaps me).heap.ptr token

-- A step of main outside of comm_barrier_all. The loop has none while *token is 0, and the
-- worker does not end with a job in its hands.
def main (job : RingJob) (s : RingState) (me : Nat) (prior : BitVec 64) : Option RingState :=
  match s.pc me with
  | .malloc => do
    let heap ← (s.heaps me).call (job.libc me) (.malloc 4)
    return {s.go me with
      heaps := Function.update s.heaps me heap
      token := Function.update s.token me heap.results.getLast?.join}
  | .clear => do
    let token ← s.token me
    return {s.go me with system := s.system.store me (s.offset me token) (intBytes 0).bytes}
  | .put => do
    let token ← s.token me
    let system ← s.system.step job.toCluster (.put me (s.offset me token) (intBytes 1) (job.target me) prior)
    return {s.go me with system := system}
  | .spin => do
    let token ← s.token me
    if readInt (s.system.heaps me) (s.offset me token).toNat = 0 then none else some (s.go me)
  | .joinWorker => if (s.system.pes me).busy.isNone then some (s.go me) else none
  | .joinComm => some (s.go me)
  | _ => none

end RingState

-- What the threads do besides main: they put nothing of their own, comm_barrier_all moves
-- where main has called it, and a thread that was joined has no step.
def Event.Granted (pc : MainPc) : Event → Prop
  | .put _ _ _ _ _ => False
  | .putNbi _ _ _ _ => False
  | .sync _ _ => pc.Joins
  | .dequeue _ => pc.Working
  | .execute _ _ _ => pc.Working
  | .send _ _ => pc ≠ .done
  | .receive _ _ _ => pc ≠ .done

instance (pc : MainPc) : (event : Event) → Decidable (event.Granted pc)
  | .put _ _ _ _ _ => inferInstanceAs (Decidable False)
  | .putNbi _ _ _ _ => inferInstanceAs (Decidable False)
  | .sync _ _ => inferInstanceAs (Decidable pc.Joins)
  | .dequeue _ => inferInstanceAs (Decidable pc.Working)
  | .execute _ _ _ => inferInstanceAs (Decidable pc.Working)
  | .send _ _ => inferInstanceAs (Decidable (pc ≠ .done))
  | .receive _ _ _ => inferInstanceAs (Decidable (pc ≠ .done))

-- main goes on when comm_barrier_all returns.
def Event.onward (t : System) (pc : MainPc) : Event → MainPc
  | .sync me _ => if (t.pes me).returns = (t.pes me).calls then pc.after me else pc
  | _ => pc

def RingState.step (job : RingJob) (s : RingState) : RingEvent → Option RingState
  | .main me prior => if me < job.n then s.main job me prior else none
  | .run event =>
    if event.Granted (s.pc event.me) then do
      let system ← s.system.step job.toCluster event
      return {s with
        system := system
        pc := Function.update s.pc event.me (event.onward system (s.pc event.me))}
    else none

def RingState.start (heaps : Nat → Session) : RingState := ⟨.start,heaps,fun _ => none,fun _ => .malloc⟩

def rings (job : RingJob) : Guarded.Machine RingState RingEvent := ⟨RingState.step job⟩

-- The reads and writes of the threads are whole.
def Carrying (job : RingJob) (s : RingState) : RingEvent → Prop
  | .main _ _ => True
  | .run event => Reliable job.toCluster s.system event ∧ PayloadFound event

instance (job : RingJob) (s : RingState) : (event : RingEvent) → Decidable (Carrying job s event)
  | .main _ _ => inferInstanceAs (Decidable True)
  | .run event => inferInstanceAs (Decidable (Reliable job.toCluster s.system event ∧ PayloadFound event))

-- Behind the put, and behind the loop.
def MainPc.Passed (me : Nat) : MainPc → Prop
  | .spin => me = 0
  | .together => True
  | .finalize => True
  | .joinWorker => True
  | .joinComm => True
  | .done => True
  | _ => False

def MainPc.Got (me : Nat) : MainPc → Prop
  | .put => me ≠ 0
  | .together => True
  | .finalize => True
  | .joinWorker => True
  | .joinComm => True
  | .done => True
  | _ => False

instance (me : Nat) : (pc : MainPc) → Decidable (pc.Passed me)
  | .malloc => isFalse id
  | .allocating => isFalse id
  | .clear => isFalse id
  | .barrier => isFalse id
  | .put => isFalse id
  | .spin => inferInstanceAs (Decidable (me = 0))
  | .together => isTrue trivial
  | .finalize => isTrue trivial
  | .joinWorker => isTrue trivial
  | .joinComm => isTrue trivial
  | .done => isTrue trivial

-- In shmem_finalize.
def MainPc.Finalizes : MainPc → Prop
  | .finalize => True
  | .joinWorker => True
  | .joinComm => True
  | .done => True
  | _ => False

-- How often comm_barrier_all has returned by then.
def MainPc.rounds : MainPc → Nat
  | .malloc => 0
  | .allocating => 0
  | .clear => 1
  | .barrier => 1
  | .put => 2
  | .spin => 2
  | .together => 2
  | .finalize => 3
  | .joinWorker => 4
  | .joinComm => 4
  | .done => 4

def MainPc.left (me : Nat) : MainPc → Nat
  | .malloc => 10
  | .allocating => 9
  | .clear => 8
  | .barrier => 7
  | .put => if me = 0 then 6 else 5
  | .spin => if me = 0 then 5 else 6
  | .together => 4
  | .finalize => 3
  | .joinWorker => 2
  | .joinComm => 1
  | .done => 0

def MainPc.Fits (pc : MainPc) (pe : Pe) : Prop :=
  pe.returns = pc.rounds ∧ (pe.calls = pc.rounds ∨ (pc.Joins ∧ pe.calls = pc.rounds + 1))

def RingJob.tokenOffset (job : RingJob) : BitVec 64 := BitVec.ofNat 64 (4 * job.n)

-- The one put of PE i.
def RingJob.pass (job : RingJob) (i : Nat) : Issue := ⟨i,job.target i,job.tokenOffset,4,.buffer (intBytes 1).bytes,2⟩

def RingJob.asked (job : RingJob) (i : Nat) (pc : MainPc) : List Issue := if pc.Passed i then [job.pass i] else []

section Main
variable {me : Nat} {pc : MainPc}

theorem passed_after : (pc.after me).Passed me ↔ pc.Passed me ∨ pc = .put := by
  cases pc <;> by_cases zero : me = 0 <;> simp [MainPc.after,MainPc.Passed,zero]

theorem got_after : (pc.after me).Got me ↔ pc.Got me ∨ pc = .spin := by
  cases pc <;> by_cases zero : me = 0 <;> simp [MainPc.after,MainPc.Got,zero]

theorem left_after (going : pc ≠ .done) : (pc.after me).left me + 1 = pc.left me := by
  cases pc <;> by_cases zero : me = 0 <;> simp [MainPc.after,MainPc.left,zero] at going ⊢

theorem rounds_after : (pc.after me).rounds = pc.rounds + if pc.Joins then 1 else 0 := by
  cases pc <;> by_cases zero : me = 0 <;> simp [MainPc.after,MainPc.rounds,MainPc.Joins,zero]

theorem joins_inner (joins : pc.Joins) : (pc ≠ .malloc ∧ pc ≠ .done) ∧ pc.rounds < 4 := by
  cases pc <;> simp [MainPc.Joins,MainPc.rounds] at joins ⊢

theorem joins_together (joins : pc.Joins) (third : pc.rounds = 2) : pc = .together := by
  cases pc <;> simp [MainPc.Joins,MainPc.rounds] at joins third ⊢

theorem working_after (working : pc.Working) (other : pc ≠ .joinWorker) : (pc.after me).Working := by
  cases pc <;> by_cases zero : me = 0 <;> simp [MainPc.after,MainPc.Working,zero] at working other ⊢

theorem joined_rounds (joined : ¬ pc.Working) : pc.rounds = 4 := by
  cases pc <;> simp [MainPc.Working,MainPc.rounds] at joined ⊢

theorem late_finalizes (late : 3 ≤ pc.rounds) : pc.Finalizes := by
  cases pc <;> simp [MainPc.Finalizes,MainPc.rounds] at late ⊢

theorem after_made : pc.after me ≠ .malloc := by
  cases pc <;> by_cases zero : me = 0 <;> simp [MainPc.after,zero]

theorem passed_rounds (passed : pc.Passed me) : 2 ≤ pc.rounds := by
  cases pc <;> simp [MainPc.Passed,MainPc.rounds] at passed ⊢

-- All PEs but 0 pass on what they got; PE 0 gets back what it passed.
theorem passed_got (passed : pc.Passed me) (other : me ≠ 0) : pc.Got me := by
  cases pc <;> simp [MainPc.Passed,MainPc.Got,other] at passed ⊢

theorem got_passed (got : pc.Got 0) : pc.Passed 0 := by
  cases pc <;> simp [MainPc.Passed,MainPc.Got] at got ⊢

end Main

structure Circling (job : RingJob) (heaps : Nat → Session) (s : RingState) : Prop where
  ordered : Ordered job.toCluster s.system
  sized : Buffered s.system
  inside : ∀ p, s.pc p ≠ .malloc → p < job.n
  fits : ∀ p, (s.pc p).Fits (s.system.pes p)
  fresh : ∀ p, s.pc p = .malloc → s.heaps p = heaps p
  token : ∀ p, s.pc p ≠ .malloc → s.token p = some ((job.region p).base + 4 * job.n) ∧ (s.heaps p).heap.ptr = (job.region p).base
  issues : ∀ i, s.system.issued.filter (·.origin = i) = job.asked i (s.pc i)
  got : ∀ k, (s.pc k).Got k → ∃ update ∈ s.system.applied, update.heap = k ∧
    update.written = (job.tokenOffset,(intBytes 1).bytes)

section Facts
variable {job : RingJob} {heaps : Nat → Session} {s t : RingState} {i k me address : Nat} {update : Update}

theorem token_toNat (job : RingJob) : job.tokenOffset.toNat = 4 * job.n := by
  have room := job.fits 0
  have fits := (job.region 0).fits
  unfold RingJob.tokenOffset
  rw [BitVec.toNat_ofNat]
  exact Nat.mod_eq_of_lt (by omega)

theorem token_apart (job : RingJob) (size : Nat) : job.Apart job.tokenOffset size := by
  refine Or.inr ?_
  rw [token_toNat,job.front]
  omega

theorem target_inside (job : RingJob) (i : Nat) : job.target i < job.n := Nat.mod_lt _ job.positive

theorem Circling.offset (circling : Circling job heaps s) (me : Nat) (made : s.pc me ≠ .malloc) :
    ∃ token, s.token me = some token ∧ s.offset me token = job.tokenOffset := by
  obtain ⟨token,ptr⟩ := circling.token me made
  refine ⟨_,token,?_⟩
  unfold RingState.offset
  rw [ptr,← token_toNat job]
  exact commLocalOffset_add _

theorem Circling.issued (circling : Circling job heaps s) {issue : Issue} (member : issue ∈ s.system.issued) :
    ∃ i < job.n, (s.pc i).Passed i ∧ issue = job.pass i := by
  have listed : issue ∈ s.system.issued.filter (·.origin = issue.origin) := List.mem_filter.mpr ⟨member,by simp⟩
  rw [circling.issues,RingJob.asked] at listed
  split at listed
  · rename_i passed
    refine ⟨issue.origin,circling.inside _ ?_,passed,List.mem_singleton.mp listed⟩
    intro first
    rw [first] at passed
    cases passed
  · cases listed

theorem Circling.passes (circling : Circling job heaps s) (passed : (s.pc i).Passed i) : job.pass i ∈ s.system.issued := by
  have listed : job.pass i ∈ s.system.issued.filter (·.origin = i) := by
    rw [circling.issues,RingJob.asked,if_pos passed]
    exact List.mem_singleton.mpr rfl
  exact (List.mem_filter.mp listed).1

-- What is written to a token comes from the PE in front.
theorem Circling.written (circling : Circling job heaps s) (applied : update ∈ s.system.applied) (first : 4 * job.n ≤ address)
    (covers : update.put.Covers address) : ∃ i < job.n, (s.pc i).Passed i ∧ update.origin = i ∧ job.target i = update.heap ∧
      update.written = (job.tokenOffset,(intBytes 1).bytes) := by
  obtain ⟨low,high⟩ := covers
  rcases circling.ordered.accountable.traceable.applied update applied with ⟨slot,below,dest,size⟩ | ⟨issue,member,origin,target,dest,_,given⟩
  · have range := slot_range below dest size
    have front := job.front
    simp only [Update.written,Update.put] at range low high
    omega
  · obtain ⟨i,below,passed,rfl⟩ := circling.issued member
    refine ⟨i,below,passed,origin.symm,target,?_⟩
    rcases given with caller | buffer
    · cases caller
    · exact Prod.ext dest.symm (JobSource.buffer.inj buffer).symm

-- Nobody's token is written before the PE in front has put.
theorem Circling.zero (circling : Circling job heaps s) (first : 4 * job.n ≤ address)
    (none : ∀ i < job.n, (s.pc i).Passed i → job.target i ≠ k) : s.system.heaps k address = 0 := by
  by_contra changed
  obtain ⟨update,applied,heap,covers⟩ := circling.ordered.accountable.signalled.toRecorded.changed changed
  obtain ⟨i,below,passed,_,target,_⟩ := circling.written applied first covers
  exact none i below passed (target.trans heap)

theorem readInt_zero {heap : Nat → UInt8} (zero : ∀ i < 4, heap (address + i) = 0) : readInt heap address = 0 := by
  have read : ByteMemory.read heap address 4 = List.replicate 4 0 := by
    apply List.ext_getElem
    · simp
    · intro i short _
      simp only [ByteMemory.read,List.getElem_map,List.getElem_range,List.getElem_replicate]
      exact zero i (by simpa using short)
  unfold readInt
  rw [read]
  rfl

-- *token = 0 is done before anybody is past the barrier behind it.
theorem Circling.store (circling : Circling job heaps s) (clears : s.pc me = .clear) :
    s.system.store me job.tokenOffset (intBytes 0).bytes = s.system := by
  have below := circling.inside me (by rw [clears]; exact MainPc.noConfusion)
  have early : (s.system.pes me).calls = 1 := by
    have fits := circling.fits me
    rw [clears] at fits
    rcases fits.2 with same | ⟨joins,_⟩
    · exact same
    · cases joins
  have none : ∀ i < job.n, (s.pc i).Passed i → job.target i ≠ me := by
    intro i inside passed
    have late := passed_rounds passed
    have order := circling.ordered.accountable.signalled.syncSafe.order i inside me below
    rw [(circling.fits i).1] at order
    omega
  have held : ByteMemory.read (s.system.heaps me) job.tokenOffset.toNat (intBytes 0).bytes.length = (intBytes 0).bytes := by
    have zeros : (intBytes 0).bytes = List.replicate 4 0 := by decide
    rw [zeros]
    apply List.ext_getElem
    · simp
    · intro i _ _
      simp only [ByteMemory.read,List.getElem_map,List.getElem_range,List.getElem_replicate]
      exact circling.zero (by rw [token_toNat]; omega) none
  unfold System.store
  rw [ByteMemory.memcpy_read held,Function.update_eq_self]

-- The loop ends when the put of the PE in front is there.
theorem Circling.found (circling : Circling job heaps s) (nonzero : readInt (s.system.heaps k) job.tokenOffset.toNat ≠ 0) :
    ∃ update ∈ s.system.applied, update.heap = k ∧ update.written = (job.tokenOffset,(intBytes 1).bytes) := by
  have some : ∃ i < 4, s.system.heaps k (job.tokenOffset.toNat + i) ≠ 0 := by
    by_contra none
    refine nonzero (readInt_zero fun i below => ?_)
    by_contra changed
    exact none ⟨i,below,changed⟩
  obtain ⟨i,_,changed⟩ := some
  obtain ⟨update,applied,heap,covers⟩ := circling.ordered.accountable.signalled.toRecorded.changed changed
  obtain ⟨_,_,_,_,_,written⟩ := circling.written applied (by rw [token_toNat]; omega) covers
  exact ⟨update,applied,heap,written⟩

theorem fits_after {pc : MainPc} {pe : Pe} (fits : pc.Fits pe) (apart : ¬ pc.Joins) : (pc.after me).Fits pe := by
  have rounds := @rounds_after me pc
  rw [if_neg apart,Nat.add_zero] at rounds
  unfold MainPc.Fits
  rw [rounds]
  refine ⟨fits.1,Or.inl ?_⟩
  rcases fits.2 with same | ⟨joins,_⟩
  · exact same
  · exact False.elim (apart joins)

-- comm_barrier_all is called once where main calls it.
theorem fits_sync {cluster : Cluster} {u v : System} {pc : MainPc} (signalled : Signalled cluster u) (joins : pc.Joins)
    (fits : pc.Fits (u.pes me)) (moved : u.step cluster (.sync me prior) = some v) :
    ((Event.sync me prior).onward v pc).Fits (v.pes me) := by
  obtain ⟨returns,calls⟩ := fits
  have rounds := @rounds_after me pc
  rw [if_pos joins] at rounds
  simp only [Event.onward]
  rcases sync_counts signalled moved with ⟨free,called,same⟩ | ⟨busy,same,still | more⟩
  · rw [if_neg (by omega)]
    exact ⟨by omega,Or.inr ⟨joins,by omega⟩⟩
  · rw [if_neg (by omega)]
    exact ⟨by omega,Or.inr ⟨joins,by omega⟩⟩
  · rw [if_pos (by omega)]
    unfold MainPc.Fits
    rw [rounds]
    exact ⟨by omega,Or.inl (by omega)⟩

-- shmem_malloc's block is behind __pSync on every PE.
theorem wired_malloc {heap : Session} (wired : job.wired k = some heap) : ∃ next, heap.call (job.libc k) (.malloc 4) = some next ∧
    next.results.getLast?.join = some ((job.region k).base + 4 * job.n) ∧ next.heap.ptr = (job.region k).base := by
  have fits := job.fits k
  obtain ⟨first,called,_,stacked⟩ := (start_stacked (job.region k) (job.clean k)).placed (job.libc k)
    (by omega : 4 * job.n ≤ (job.region k).base + (job.region k).size - (job.region k).base)
  obtain rfl := Option.some.inj (called.symm.trans wired)
  obtain ⟨next,later,results,_⟩ := stacked.placed (job.libc k)
    (by omega : 4 ≤ (job.region k).base + (job.region k).size - ((job.region k).base + 4 * job.n))
  refine ⟨next,later,?_,((call_fixed later).1).trans (call_fixed called).1⟩
  rw [results,List.getLast?_concat]
  rfl

-- One PE goes on in main, or stays where it is, and puts at most its token.
theorem Circling.next (circling : Circling job heaps s) {system : System} {pc : MainPc} {more : List Issue}
    (ordered : Ordered job.toCluster system) (sized : Buffered system) (made : pc = .malloc ↔ s.pc me = .malloc)
    (fits : ∀ p, (Function.update s.pc me pc p).Fits (system.pes p))
    (logs : system.issued = s.system.issued ++ more ∧ s.system.applied <+: system.applied)
    (put : (more = [] ∧ (pc.Passed me ↔ (s.pc me).Passed me)) ∨ (more = [job.pass me] ∧ ¬ (s.pc me).Passed me ∧ pc.Passed me))
    (got : pc.Got me → (s.pc me).Got me ∨ ∃ update ∈ system.applied, update.heap = me ∧
      update.written = (job.tokenOffset,(intBytes 1).bytes)) :
    Circling job heaps {s with system := system, pc := Function.update s.pc me pc} := by
  have first : ∀ p, Function.update s.pc me pc p = .malloc ↔ s.pc p = .malloc := by
    intro p
    by_cases here : p = me
    · subst p
      rw [Function.update_self]
      exact made
    · rw [Function.update_of_ne here]
  have mine : ∀ issue ∈ more, issue.origin = me := by
    intro issue member
    rcases put with ⟨none,_⟩ | ⟨one,_⟩
    · rw [none] at member
      cases member
    · rw [one] at member
      rw [List.mem_singleton.mp member]
      rfl
  refine ⟨ordered,sized,fun p some => circling.inside p fun same => some ((first p).mpr same),fits,
    fun p same => circling.fresh p ((first p).mp same),fun p some => circling.token p fun same => some ((first p).mpr same),?_,?_⟩
  · intro i
    simp only [logs.1,List.filter_append,circling.issues]
    by_cases here : i = me
    · subst i
      rw [Function.update_self,List.filter_eq_self.mpr fun issue member => by simp [mine issue member]]
      rcases put with ⟨none,same⟩ | ⟨one,fresh,passed⟩
      · rw [none,List.append_nil]
        simp only [RingJob.asked,same]
      · simp only [RingJob.asked,one,if_neg fresh,if_pos passed,List.nil_append]
    · rw [Function.update_of_ne here,List.filter_eq_nil_iff.mpr fun issue member => by simp [mine issue member,Ne.symm here],
        List.append_nil]
  · intro k got'
    have old : (s.pc k).Got k → ∃ update ∈ system.applied, update.heap = k ∧
        update.written = (job.tokenOffset,(intBytes 1).bytes) := by
      intro before
      obtain ⟨update,applied,rest⟩ := circling.got k before
      exact ⟨update,logs.2.subset applied,rest⟩
    by_cases here : k = me
    · subst k
      simp only [Function.update_self] at got'
      exact (got got').elim old id
    · simp only [Function.update_of_ne here] at got'
      exact old got'

theorem Circling.fitsAfter (circling : Circling job heaps s) (me : Nat) (apart : ¬ (s.pc me).Joins) (p : Nat) :
    (Function.update s.pc me ((s.pc me).after me) p).Fits (s.system.pes p) := by
  by_cases here : p = me
  · subst p
    rw [Function.update_self]
    exact fits_after (circling.fits me) apart
  · rw [Function.update_of_ne here]
    exact circling.fits p

-- shmem_malloc has given the PE its token, and the heap stays where it was.
theorem Circling.allocated (circling : Circling job heaps s) (below : me < job.n) (pc : s.pc me = .malloc) {heap : Session}
    {token : Option Nat} (made : token = some ((job.region me).base + 4 * job.n)) (ptr : heap.heap.ptr = (job.region me).base) :
    Circling job heaps {s.go me with
      heaps := Function.update s.heaps me heap
      token := Function.update s.token me token} := by
  have fits := circling.fitsAfter me (by rw [pc]; exact id)
  rw [pc] at fits
  refine ⟨circling.ordered,circling.sized,?_,?_,?_,?_,?_,?_⟩
  · intro p some
    by_cases here : p = me
    · exact here ▸ below
    · simp only [RingState.go,Function.update_of_ne here] at some
      exact circling.inside p some
  · simpa only [RingState.go,pc] using fits
  · intro p same
    by_cases here : p = me
    · subst p
      simp [RingState.go,pc,MainPc.after] at same
    · simp only [RingState.go,Function.update_of_ne here] at same ⊢
      exact circling.fresh p same
  · intro p some
    by_cases here : p = me
    · subst p
      simp only [Function.update_self]
      exact ⟨made,ptr⟩
    · simp only [RingState.go,Function.update_of_ne here] at some ⊢
      exact circling.token p some
  · intro i
    have issues := circling.issues i
    by_cases here : i = me
    · subst i
      simpa [RingState.go,pc,MainPc.after,RingJob.asked,MainPc.Passed] using issues
    · simp only [RingState.go,Function.update_of_ne here]
      exact issues
  · intro k got
    by_cases here : k = me
    · subst k
      simp [RingState.go,pc,MainPc.after,MainPc.Got] at got
    · simp only [RingState.go,Function.update_of_ne here] at got
      exact circling.got k got

-- A join changes nothing but main's place.
theorem Circling.joined (circling : Circling job heaps s) (pc : s.pc me = .joinWorker ∨ s.pc me = .joinComm) :
    Circling job heaps (s.go me) := by
  have apart : ¬ (s.pc me).Joins := by rcases pc with pc | pc <;> rw [pc] <;> exact id
  refine circling.next circling.ordered circling.sized ?_ (circling.fitsAfter me apart)
    ⟨(List.append_nil _).symm,List.prefix_rfl⟩ (Or.inl ⟨rfl,?_⟩) fun got => Or.inl ?_
  · exact iff_of_false after_made (by rcases pc with pc | pc <;> rw [pc] <;> exact MainPc.noConfusion)
  · rw [passed_after]
    exact or_iff_left (by rcases pc with pc | pc <;> rw [pc] <;> exact MainPc.noConfusion)
  · refine (got_after.mp got).resolve_right ?_
    rcases pc with pc | pc <;> rw [pc] <;> exact MainPc.noConfusion

theorem main_circling (wired : ∀ p, job.wired p = some (heaps p)) (circling : Circling job heaps s) (below : me < job.n)
    (moved : s.main job me prior = some t) : Circling job heaps t := by
  unfold RingState.main at moved
  split at moved
  · rename_i pc
    obtain ⟨next,called,token,ptr⟩ := wired_malloc (wired me)
    rw [circling.fresh me pc,called] at moved
    cases moved
    exact circling.allocated below pc token ptr
  · rename_i pc
    obtain ⟨token,held,offset⟩ := circling.offset me (by rw [pc]; exact MainPc.noConfusion)
    rw [held,Option.bind_eq_bind,Option.bind_some,offset,circling.store pc] at moved
    cases moved
    refine circling.next circling.ordered circling.sized ?_ (circling.fitsAfter me (by rw [pc]; exact id))
      ⟨(List.append_nil _).symm,List.prefix_rfl⟩ (Or.inl ⟨rfl,?_⟩) ?_
    · simp [pc,MainPc.after]
    · simp [pc,MainPc.after,MainPc.Passed]
    · simp [pc,MainPc.after,MainPc.Got]
  · rename_i pc
    obtain ⟨token,held,offset⟩ := circling.offset me (by rw [pc]; exact MainPc.noConfusion)
    rw [held,Option.bind_eq_bind,Option.bind_some,offset] at moved
    obtain ⟨system,stepped,made⟩ := Option.bind_eq_some_iff.mp moved
    cases made
    have signalled := circling.ordered.accountable.signalled
    have counts := step_counts stepped (by intro _ _ same; cases same)
    have reliable : Reliable job.toCluster s.system (.put me job.tokenOffset (intBytes 1) (job.target me) prior) := trivial
    have found : PayloadFound (.put me job.tokenOffset (intBytes 1) (job.target me) prior) := trivial
    have fits := circling.fitsAfter me (by rw [pc]; exact id)
    refine circling.next (step_ordered circling.ordered reliable found (token_apart job _) stepped)
      (step_sized signalled.toPiped circling.sized reliable found stepped) ?_ ?_ ((step_logs stepped).imp_right Writes.logged) (Or.inr ⟨?_,?_,?_⟩) ?_
    · exact iff_of_false after_made (by rw [pc]; exact MainPc.noConfusion)
    · intro p
      unfold MainPc.Fits
      rw [(counts p).1,(counts p).2]
      exact fits p
    · have calls : (s.system.pes me).calls = 2 := by
        have fits := circling.fits me
        rw [pc] at fits
        rcases fits.2 with same | ⟨joins,_⟩
        · exact same
        · cases joins
      simp only [Event.issues,RingJob.pass,calls,intBytes_length]
    · rw [pc]
      exact id
    · exact passed_after.mpr (Or.inr pc)
    · intro got
      rcases got_after.mp got with old | spin
      · exact Or.inl old
      · rw [pc] at spin
        cases spin
  · rename_i pc
    obtain ⟨token,held,offset⟩ := circling.offset me (by rw [pc]; exact MainPc.noConfusion)
    rw [held,Option.bind_eq_bind,Option.bind_some,offset] at moved
    split at moved
    · cases moved
    · rename_i nonzero
      cases moved
      refine circling.next circling.ordered circling.sized ?_ (circling.fitsAfter me (by rw [pc]; exact id))
        ⟨(List.append_nil _).symm,List.prefix_rfl⟩ (Or.inl ⟨rfl,?_⟩) fun _ => Or.inr (circling.found nonzero)
      · exact iff_of_false after_made (by rw [pc]; exact MainPc.noConfusion)
      · rw [passed_after,pc]
        simp
  · rename_i pc
    split at moved
    · cases moved
      exact circling.joined (Or.inl pc)
    · cases moved
  · rename_i pc
    cases moved
    exact circling.joined (Or.inr pc)
  · cases moved

theorem ring_run (moved : s.step job (.run event) = some t) : ∃ system, event.Granted (s.pc event.me) ∧
    s.system.step job.toCluster event = some system ∧
    t = {s with
      system := system
      pc := Function.update s.pc event.me (event.onward system (s.pc event.me))} := by
  simp only [RingState.step] at moved
  split at moved
  · rename_i granted
    obtain ⟨system,stepped,made⟩ := Option.bind_eq_some_iff.mp moved
    cases made
    exact ⟨system,granted,stepped,rfl⟩
  · cases moved

theorem ring_moves {event : Event} {system : System} (granted : event.Granted (s.pc event.me))
    (stepped : s.system.step job.toCluster event = some system) : ∃ t, s.step job (.run event) = some t := by
  refine ⟨{s with
    system := system
    pc := Function.update s.pc event.me (event.onward system (s.pc event.me))},?_⟩
  simp only [RingState.step]
  rw [if_pos granted,stepped]
  rfl

theorem onward_cases {event : Event} {pc : MainPc} (granted : event.Granted pc) (u : System) :
    event.onward u pc = pc ∨ (pc.Joins ∧ event.onward u pc = pc.after event.me) := by
  cases event with
  | sync me prior =>
    simp only [Event.onward]
    split
    · exact Or.inr ⟨granted,rfl⟩
    · exact Or.inl rfl
  | _ => exact Or.inl rfl

theorem fits_run {event : Event} {system : System} (circling : Circling job heaps s) (granted : event.Granted (s.pc event.me))
    (stepped : s.system.step job.toCluster event = some system) (p : Nat) :
    (Function.update s.pc event.me (event.onward system (s.pc event.me)) p).Fits (system.pes p) := by
  by_cases here : p = event.me
  · subst p
    rw [Function.update_self]
    cases event with
    | sync me prior => exact fits_sync circling.ordered.accountable.signalled granted (circling.fits me) stepped
    | _ =>
      obtain ⟨calls,returns⟩ := step_counts stepped (by intro _ _ same; cases same) _
      unfold MainPc.Fits
      rw [calls,returns]
      exact circling.fits _
  · rw [Function.update_of_ne here,step_elsewhere stepped here]
    exact circling.fits p

theorem step_circling {event : RingEvent} (wired : ∀ p, job.wired p = some (heaps p)) (circling : Circling job heaps s)
    (carrying : Carrying job s event) (moved : s.step job event = some t) : Circling job heaps t := by
  cases event with
  | main me prior =>
    simp only [RingState.step] at moved
    split at moved
    · rename_i below
      exact main_circling wired circling below moved
    · cases moved
  | run event =>
    obtain ⟨system,granted,stepped,rfl⟩ := ring_run moved
    obtain ⟨reliable,found⟩ := carrying
    have signalled := circling.ordered.accountable.signalled
    have quiet : Beside job.toCluster event ∧ event.issues s.system = [] := by
      cases event with
      | put me dest src pe prior => exact False.elim granted
      | putNbi me dest size pe => exact False.elim granted
      | _ => exact ⟨trivial,rfl⟩
    have logs := (step_logs stepped).imp_right Writes.logged
    rw [quiet.2] at logs
    have onward := onward_cases granted system
    refine circling.next (step_ordered circling.ordered reliable found quiet.1 stepped)
      (step_sized signalled.toPiped circling.sized reliable found stepped) ?_ (fits_run circling granted stepped) logs
      (Or.inl ⟨rfl,?_⟩) ?_
    · rcases onward with same | ⟨joins,same⟩
      · rw [same]
      · rw [same]
        exact iff_of_false after_made (joins_inner joins).1.1
    · rcases onward with same | ⟨joins,same⟩
      · rw [same]
      · rw [same,passed_after]
        refine or_iff_left fun put => ?_
        rw [put] at joins
        cases joins
    · intro got
      rcases onward with same | ⟨joins,same⟩
      · exact Or.inl (same ▸ got)
      · rw [same] at got
        rcases got_after.mp got with old | spin
        · exact Or.inl old
        · rw [spin] at joins
          cases joins

theorem start_circling (job : RingJob) (heaps : Nat → Session) : Circling job heaps (RingState.start heaps) := by
  have sized : Buffered System.start := by
    intro p work member
    cases member
  refine ⟨start_ordered job.linked,sized,fun _ some => False.elim (some rfl),fun _ => ⟨rfl,Or.inl rfl⟩,fun _ _ => rfl,
    fun _ some => False.elim (some rfl),fun _ => rfl,fun _ got => False.elim got⟩

theorem target_back (below : i < job.n) : i + 1 = job.target i ∨ (job.target i = 0 ∧ i + 1 = job.n) := by
  unfold RingJob.target
  by_cases last : i + 1 = job.n
  · exact Or.inr ⟨by rw [last,Nat.mod_self],last⟩
  · exact Or.inl (Nat.mod_eq_of_lt (by omega)).symm

-- Behind the loop the PE in front has put.
theorem Circling.front (circling : Circling job heaps s) (got : (s.pc k).Got k) :
    ∃ i < job.n, (s.pc i).Passed i ∧ job.target i = k := by
  obtain ⟨update,applied,rfl,written⟩ := circling.got k got
  obtain ⟨dest,bytes⟩ := Prod.mk.inj written
  have covers : update.put.Covers (4 * job.n) := by
    unfold RemotePut.Covers
    simp only [Update.put,dest,bytes,token_toNat,intBytes_length]
    omega
  obtain ⟨i,below,passed,_,target,_⟩ := circling.written applied (Nat.le_refl _) covers
  exact ⟨i,below,passed,target⟩

-- The token has come by all PEs up to this one.
theorem Circling.reached (circling : Circling job heaps s) (above : 0 < k) (got : (s.pc k).Got k) :
    (s.pc 0).Passed 0 ∧ ∀ j, 0 < j → j ≤ k → (s.pc j).Got j := by
  induction k, above using Nat.le_induction with
  | base =>
    obtain ⟨i,below,passed,target⟩ := circling.front got
    rcases target_back below with same | ⟨zero,_⟩
    · obtain rfl : i = 0 := by omega
      refine ⟨passed,fun j above below => ?_⟩
      obtain rfl : j = 0 + 1 := by omega
      exact got
    · omega
  | succ k above ih =>
    obtain ⟨i,below,passed,target⟩ := circling.front got
    rcases target_back below with same | ⟨zero,_⟩
    · obtain rfl : i = k := by omega
      obtain ⟨first,rest⟩ := ih (passed_got passed (by omega))
      refine ⟨first,fun j above below => ?_⟩
      rcases Nat.lt_or_eq_of_le below with before | rfl
      · exact rest j above (by omega)
      · exact got
    · omega

theorem Circling.raceFree (circling : Circling job heaps s) (i : Nat) : RaceFree s.system (job.pass i) := by
  intro other member _
  obtain ⟨_,_,_,rfl⟩ := circling.issued member
  exact Or.inr ⟨rfl,rfl⟩

-- What arrived stays there.
theorem Circling.one (circling : Circling job heaps s) (applied : update ∈ s.system.applied)
    (written : update.written = (job.tokenOffset,(intBytes 1).bytes)) :
    readInt (s.system.heaps update.heap) job.tokenOffset.toNat = 1 := by
  obtain ⟨dest,bytes⟩ := Prod.mk.inj written
  have covers : update.put.Covers (4 * job.n) := by
    unfold RemotePut.Covers
    simp only [Update.put,dest,bytes,token_toNat,intBytes_length]
    omega
  obtain ⟨i,_,passed,origin,target,_⟩ := circling.written applied (Nat.le_refl _) covers
  have among : update ∈ s.system.updates i update.heap := List.mem_filter.mpr ⟨applied,by simp [origin]⟩
  have fulfils : Fulfils (job.pass i) update.order := by
    refine ⟨dest.symm,?_,Or.inr (congrArg JobSource.buffer bytes.symm)⟩
    show 4 = update.bytes.length
    rw [bytes,intBytes_length]
  have held := circling.ordered.accountable.traceable.read circling.ordered.accountable.signalled.toRecorded
    (circling.passes passed) target rfl (circling.raceFree i) ⟨update,among,fulfils⟩
  rw [intBytes_length] at held
  unfold readInt
  rw [show ByteMemory.read (s.system.heaps update.heap) job.tokenOffset.toNat 4 = (intBytes 1).bytes from held]
  rfl

-- With nothing under way every put has arrived.
theorem Circling.arrived (circling : Circling job heaps s) (idle : Idle job.toCluster s.system) (passed : (s.pc i).Passed i) :
    readInt (s.system.heaps (job.target i)) job.tokenOffset.toNat = 1 := by
  have below : i < job.n := by
    refine circling.inside i fun first => ?_
    rw [first] at passed
    cases passed
  obtain ⟨put,member,same⟩ := circling.ordered.orderly.entered _ (circling.passes passed) _ rfl
  have update : ∃ update ∈ s.system.updates i (job.target i), update.written = (job.tokenOffset,(intBytes 1).bytes) := by
    unfold System.puts at member
    split at member
    · obtain ⟨update,among,rfl⟩ := List.mem_map.mp member
      exact ⟨update,among,same⟩
    · rename_i other
      have applied := idle.applied circling.ordered.accountable.signalled.toPiped ⟨below,target_inside job i,other⟩
      have written : put.written ∈ (s.system.updates i (job.target i)).map Update.written := by
        rw [applied]
        exact List.mem_map_of_mem member
      obtain ⟨update,among,also⟩ := List.mem_map.mp written
      exact ⟨update,among,also.trans same⟩
  obtain ⟨update,among,written⟩ := update
  obtain ⟨applied,which⟩ := List.mem_filter.mp among
  simp only [decide_eq_true_eq] at which
  rw [← which.2]
  exact circling.one applied written

-- The token goes round: each PE puts it once, gets it when all PEs in front have had it,
-- and PE 0 when all others have.
structure InTurn (job : RingJob) (s : RingState) : Prop where
  token : ∀ p, s.pc p ≠ .malloc → s.token p = some ((job.region p).base + 4 * job.n)
  rounds : ∀ p, (s.system.pes p).returns = (s.pc p).rounds
  once : ∀ i, s.system.issued.filter (·.origin = i) = job.asked i (s.pc i)
  turn : ∀ k < job.n, (s.pc k).Got k → (s.pc 0).Passed 0 ∧ ∀ j < job.n, 0 < j → (j ≤ k ∨ k = 0) → (s.pc j).Got j
  value : ∀ k < job.n, (s.pc k).Got k → readInt (s.system.heaps k) (4 * job.n) = 1
  zero : ∀ k < job.n, readInt (s.system.heaps k) (4 * job.n) ≠ 0 → ∃ i < job.n, job.target i = k ∧ (s.pc i).Passed i

theorem Circling.inTurn (circling : Circling job heaps s) : InTurn job s := by
  refine ⟨fun p made => (circling.token p made).1,fun p => (circling.fits p).1,circling.issues,?_,?_,?_⟩
  · intro k below got
    rcases Nat.eq_zero_or_pos k with rfl | above
    · refine ⟨got_passed got,fun j there above _ => ?_⟩
      obtain ⟨i,last,passed,target⟩ := circling.front got
      have around : i + 1 = job.n := by
        rcases target_back last with same | ⟨_,same⟩
        · omega
        · exact same
      have other : i ≠ 0 := by omega
      exact (circling.reached (Nat.pos_of_ne_zero other) (passed_got passed other)).2 j above (by omega)
    · obtain ⟨first,rest⟩ := circling.reached above got
      exact ⟨first,fun j _ above early => rest j above (by omega)⟩
  · intro k _ got
    obtain ⟨update,applied,rfl,written⟩ := circling.got k got
    rw [← token_toNat]
    exact circling.one applied written
  · intro k _ nonzero
    by_contra none
    refine nonzero (readInt_zero fun i _ => circling.zero (Nat.le_add_right _ _) fun i below passed target => ?_)
    exact none ⟨i,below,target,passed⟩

end Facts

end OpenShmem
