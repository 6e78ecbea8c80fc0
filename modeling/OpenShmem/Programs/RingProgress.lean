import OpenShmem.Programs.Ring

namespace OpenShmem
open Totals

-- The steps that main has before it, and what they may put under way.
def RingState.outstanding (job : RingJob) (s : RingState) : Nat :=
  36 * total job.n (fun p => (s.pc p).left p) + s.system.outstanding job.toCluster 4

-- A step of main, of comm_barrier_all, or one that carries something on.
def Event.Works : Event → Prop
  | .sync _ _ => True
  | event => event.Carries

def Proceeds (job : RingJob) (s : RingState) : RingEvent → Prop
  | .main _ _ => True
  | .run event => (Reliable job.toCluster s.system event ∧ PayloadFound event) ∧ event.Works

-- Where comm_finalize joins a thread.
def RingEvent.Stops (s : RingState) : RingEvent → Prop
  | .main me _ => s.pc me = .joinWorker ∨ s.pc me = .joinComm
  | .run _ => False

-- All PEs have come to shmem_finalize.
def Gathered (job : RingJob) (s : RingState) : Prop := ∀ p < job.n, (s.pc p).Finalizes

-- All PEs have come to comm_finalize, no thread is joined yet, and nothing is under way.
structure Ready (job : RingJob) (s : RingState) : Prop extends Idle job.toCluster s.system where
  ready : ∀ p < job.n, s.pc p = .joinWorker

structure Finished (job : RingJob) (s : RingState) : Prop extends Idle job.toCluster s.system where
  done : ∀ p < job.n, s.pc p = .done

section Runs
variable {job : RingJob} {heaps : Nat → Session} {s t : RingState} {i k me : Nat} {cluster : Cluster}

theorem Proceeds.carrying {event : RingEvent} (proceeds : Proceeds job s event) : Carrying job s event := by
  cases event with
  | main me prior => trivial
  | run event => exact proceeds.1

theorem put_outstanding {u v : System} (below : me < cluster.n)
    (moved : u.step cluster (.put me dest (intBytes 1) pe prior) = some v) :
    v.outstanding cluster rounds ≤ u.outstanding cluster rounds + 34 := by
  unfold System.step at moved
  rw [if_pos (show (Event.put me dest (intBytes 1) pe prior).me < cluster.n from below)] at moved
  simp only [System.move] at moved
  split at moved
  · have cost := backlog_commPut below moved
    have same : total cluster.n (fun p => (v.pes p).left cluster.n rounds) = total cluster.n fun p => (u.pes p).left cluster.n rounds := by
      refine total_congr fun p _ => ?_
      obtain ⟨pc,calls,_⟩ := commPut_thread moved p
      simp only [Pe.left,pc,calls]
      rfl
    have size : packetSize + (intBytes 1).bytes.length + 1 = 34 := by
      rw [intBytes_length]
      rfl
    have before : (u.issue ⟨me,pe,dest,(intBytes 1).bytes.length,.buffer (intBytes 1).bytes,(u.pes me).calls⟩).backlog cluster =
      u.backlog cluster := rfl
    rw [size,before] at cost
    unfold System.outstanding
    omega
  · cases moved

theorem left_update (below : me < n) (pcs : Nat → MainPc) (pc : MainPc) :
    total n (fun p => (Function.update pcs me pc p).left p) + (pcs me).left me = total n (fun p => (pcs p).left p) + pc.left me := by
  have change := total_update (f := fun p => (pcs p).left p) (g := fun p => (Function.update pcs me pc p).left p) below
    fun p away => by simp only [Function.update_of_ne away]
  simpa only [Function.update_self] using change

theorem main_lower (circling : Circling job heaps s) (below : me < job.n) (moved : s.main job me prior = some t) :
    t.outstanding job < s.outstanding job := by
  have going : s.pc me ≠ .done → total job.n (fun p => ((s.go me).pc p).left p) + 1 = total job.n fun p => (s.pc p).left p := by
    intro going
    have change := left_update below s.pc ((s.pc me).after me)
    have one : ((s.pc me).after me).left me + 1 = (s.pc me).left me := left_after going
    simp only [RingState.go]
    omega
  unfold RingState.main at moved
  split at moved
  · rename_i pc
    obtain ⟨_,_,made⟩ := Option.bind_eq_some_iff.mp moved
    cases made
    have less := going (by rw [pc]; exact MainPc.noConfusion)
    simp only [RingState.outstanding,RingState.go] at less ⊢
    omega
  · rename_i pc
    have less := going (by rw [pc]; exact MainPc.noConfusion)
    obtain ⟨token,held,offset⟩ := circling.offset me (by rw [pc]; exact MainPc.noConfusion)
    rw [held,Option.bind_eq_bind,Option.bind_some,offset,circling.store pc] at moved
    cases moved
    simp only [RingState.outstanding,RingState.go] at less ⊢
    omega
  · rename_i pc
    have less := going (by rw [pc]; exact MainPc.noConfusion)
    obtain ⟨token,_,rest⟩ := Option.bind_eq_some_iff.mp moved
    obtain ⟨system,stepped,made⟩ := Option.bind_eq_some_iff.mp rest
    cases made
    have cost : system.outstanding job.toCluster 4 ≤ s.system.outstanding job.toCluster 4 + 34 := put_outstanding below stepped
    simp only [RingState.outstanding,RingState.go] at less ⊢
    omega
  · rename_i pc
    have less := going (by rw [pc]; exact MainPc.noConfusion)
    obtain ⟨token,_,rest⟩ := Option.bind_eq_some_iff.mp moved
    split at rest
    · cases rest
    · cases rest
      simp only [RingState.outstanding,RingState.go] at less ⊢
      omega
  · rename_i pc
    have less := going (by rw [pc]; exact MainPc.noConfusion)
    split at moved
    · cases moved
      simp only [RingState.outstanding,RingState.go] at less ⊢
      omega
    · cases moved
  · rename_i pc
    have less := going (by rw [pc]; exact MainPc.noConfusion)
    cases moved
    simp only [RingState.outstanding,RingState.go] at less ⊢
    omega
  · cases moved

-- Where main calls comm_barrier_all it has done so less than four times.
theorem Circling.rounds (circling : Circling job heaps s) (joins : (s.pc me).Joins) :
    Event.Rounds 4 s.system (.sync me prior) := by
  intro outside
  obtain ⟨⟨made,_⟩,few⟩ := joins_inner joins
  have below := circling.inside me made
  obtain ⟨b,abstracts,balanced,_⟩ := circling.ordered.accountable.signalled.barrier
  have returned := balanced.returned me below
  rw [abstracts.returns,abstracts.calls,abstracts.pc,if_pos outside,(circling.fits me).1] at returned
  omega

theorem step_lower {event : RingEvent} (circling : Circling job heaps s) (proceeds : Proceeds job s event)
    (moved : s.step job event = some t) : t.outstanding job < s.outstanding job := by
  cases event with
  | main me prior =>
    simp only [RingState.step] at moved
    split at moved
    · rename_i below
      exact main_lower circling below moved
    · cases moved
  | run event =>
    obtain ⟨system,granted,stepped,rfl⟩ := ring_run moved
    obtain ⟨met,works⟩ := proceeds
    have signalled := circling.ordered.accountable.signalled
    have below : event.me < job.n := step_inside stepped
    have change := left_update below s.pc (event.onward system (s.pc event.me))
    have less : system.outstanding job.toCluster 4 < s.system.outstanding job.toCluster 4 := by
      cases event with
      | sync me prior => exact (sync_outstanding signalled (circling.rounds granted) stepped).1
      | put me dest src pe prior => exact False.elim granted
      | putNbi me dest size pe => exact False.elim granted
      | _ => exact carried_outstanding signalled.toPiped ⟨met,works⟩ stepped
    have fewer : (event.onward system (s.pc event.me)).left event.me ≤ (s.pc event.me).left event.me := by
      rcases onward_cases granted system with same | ⟨joins,same⟩
      · rw [same]
      · have one : ((s.pc event.me).after event.me).left event.me + 1 = (s.pc event.me).left event.me :=
          left_after (joins_inner joins).1.2
        rw [same]
        omega
    simp only [RingState.outstanding]
    omega

-- Inside of comm_barrier_all, main has called it.
theorem Circling.within (circling : Circling job heaps s) (below : k < job.n) (busy : (s.system.pes k).pc ≠ .outside) :
    (s.pc k).Joins ∧ (s.system.pes k).calls = (s.pc k).rounds + 1 := by
  obtain ⟨b,abstracts,balanced,_⟩ := circling.ordered.accountable.signalled.barrier
  have returned := balanced.returned k below
  rw [abstracts.returns,abstracts.calls,abstracts.pc,if_neg busy] at returned
  obtain ⟨returns,same | joins⟩ := circling.fits k
  · omega
  · exact joins

theorem Circling.apart (circling : Circling job heaps s) (below : k < job.n) (apart : ¬ (s.pc k).Joins) :
    (s.system.pes k).pc = .outside := by
  by_contra busy
  exact apart (circling.within below busy).1

theorem put_enabled {u : System} (wired : cluster.WiredUp) (below : me < cluster.n) (outside : (u.pes me).pc = .outside) (there : pe < cluster.n)
    (dest : BitVec 64) (src : Source) (prior : BitVec 64) : ∃ v, u.step cluster (.put me dest src pe prior) = some v := by
  unfold System.step
  rw [if_pos (show (Event.put me dest src pe prior).me < cluster.n from below)]
  simp only [System.move]
  rw [if_pos ⟨there,outside⟩]
  exact commPut_enabled wired _ _ _ _ there

-- main outside of comm_barrier_all is in comm_finalize, or in the loop with *token 0, or goes on.
theorem main_enabled (wired : ∀ p, job.wired p = some (heaps p)) (circling : Circling job heaps s) (below : k < job.n)
    (working : (s.pc k).Working) (apart : ¬ (s.pc k).Joins) (stuck : s.pc k ≠ .joinWorker → s.main job k 0 = none) :
    s.pc k = .joinWorker ∨ (s.pc k = .spin ∧ readInt (s.system.heaps k) job.tokenOffset.toNat = 0) := by
  by_cases stops : s.pc k = .joinWorker
  · exact Or.inl stops
  replace stuck := stuck stops
  unfold RingState.main at stuck
  cases pc : s.pc k with
  | malloc =>
    obtain ⟨next,called,_⟩ := wired_malloc (wired k)
    simp only [pc] at stuck
    rw [circling.fresh k pc,called] at stuck
    cases stuck
  | clear =>
    obtain ⟨token,held,_⟩ := circling.offset k (by rw [pc]; exact MainPc.noConfusion)
    simp only [pc] at stuck
    rw [held] at stuck
    cases stuck
  | put =>
    obtain ⟨token,held,_⟩ := circling.offset k (by rw [pc]; exact MainPc.noConfusion)
    obtain ⟨v,stepped⟩ := put_enabled job.linked below (circling.apart below apart) (target_inside job k) (s.offset k token) (intBytes 1) 0
    simp only [pc] at stuck
    rw [held,Option.bind_eq_bind,Option.bind_some,stepped] at stuck
    cases stuck
  | spin =>
    obtain ⟨token,held,offset⟩ := circling.offset k (by rw [pc]; exact MainPc.noConfusion)
    refine Or.inr ⟨rfl,?_⟩
    by_contra nonzero
    simp only [pc] at stuck
    rw [held,Option.bind_eq_bind,Option.bind_some,offset,if_neg nonzero] at stuck
    cases stuck
  | joinWorker => exact False.elim (stops pc)
  | joinComm => exact False.elim (working.1 pc)
  | done => exact False.elim (working.2 pc)
  | _ =>
    rw [pc] at apart
    exact False.elim (apart trivial)

-- A state in which no thread was joined and none goes on.
structure Stopped (job : RingJob) (s : RingState) : Prop where
  working : ∀ q, (s.pc q).Working
  idle : Idle job.toCluster s.system
  syncs : ∀ q, (s.pc q).Joins → s.system.step job.toCluster (.sync q 0) = none
  mains : ∀ q < job.n, s.pc q ≠ .joinWorker → s.main job q 0 = none

theorem Circling.stopped (circling : Circling job heaps s) (working : ∀ q, (s.pc q).Working)
    (stuck : ¬ ∃ event t, (Proceeds job s event ∧ ¬ event.Stops s) ∧ s.step job event = some t) : Stopped job s := by
  refine ⟨working,?_,?_,?_⟩
  · by_contra busy
    obtain ⟨event,system,⟨met,carries⟩,stepped⟩ :=
      carried_enabled circling.ordered.accountable.signalled.toPiped circling.sized busy
    have granted : event.Granted (s.pc event.me) ∧ event.Works := by
      cases event with
      | put me dest src pe prior => exact False.elim carries
      | putNbi me dest size pe => exact False.elim carries
      | sync me prior => exact False.elim carries
      | dequeue me => exact ⟨working me,carries⟩
      | execute me contents prior => exact ⟨working me,carries⟩
      | send me result => exact ⟨(working me).2,carries⟩
      | receive me index reads => exact ⟨(working me).2,carries⟩
    obtain ⟨t,moved⟩ := ring_moves granted.1 stepped
    exact stuck ⟨.run event,t,⟨⟨met,granted.2⟩,id⟩,moved⟩
  · intro q joins
    by_contra moves
    obtain ⟨system,stepped⟩ := Option.ne_none_iff_exists'.mp moves
    have granted : Event.Granted (s.pc (Event.sync q 0).me) (.sync q 0) := joins
    obtain ⟨t,moved⟩ := ring_moves granted stepped
    exact stuck ⟨.run (.sync q 0),t,⟨⟨⟨trivial,trivial⟩,trivial⟩,id⟩,moved⟩
  · intro q below other
    by_contra moves
    obtain ⟨t,moved⟩ := Option.ne_none_iff_exists'.mp moves
    refine stuck ⟨.main q 0,t,⟨trivial,fun stops => stops.elim other (working q).1⟩,?_⟩
    simp only [RingState.step]
    rw [if_pos below,moved]

section Stuck
variable (wired : ∀ p, job.wired p = some (heaps p)) (circling : Circling job heaps s) (stopped : Stopped job s)
include circling stopped

-- A PE that has come to comm_barrier_all has called it.
theorem Stopped.inside (below : k < job.n) (joins : (s.pc k).Joins) : (s.system.pes k).pc ≠ .outside := by
  intro outside
  obtain ⟨t,stepped⟩ := sync_enabled circling.ordered.accountable.signalled below ⟨_,by rw [outside]; rfl⟩ 0
  rw [stopped.syncs k joins] at stepped
  cases stepped

include wired

theorem Stopped.standing (below : k < job.n) : (s.pc k).Joins ∨ s.pc k = .joinWorker ∨
    (s.pc k = .spin ∧ readInt (s.system.heaps k) job.tokenOffset.toNat = 0) := by
  by_cases joins : (s.pc k).Joins
  · exact Or.inl joins
  · exact Or.inr (main_enabled wired circling below (stopped.working k) joins (stopped.mains k below))

-- Whom it waits for in it is in the loop, so it is the barrier behind the loop.
theorem Stopped.waits (below : k < job.n) (joins : (s.pc k).Joins) : s.pc k = .together ∧ ∃ q < job.n, s.pc q = .spin := by
  have busy := stopped.inside circling below joins
  obtain ⟨q,there,outside,behind⟩ := circling.ordered.accountable.signalled.waits stopped.idle
    (fun q here busy => stopped.syncs q (circling.within here busy).1) below busy
  have calls := (circling.within below busy).2
  have few := (joins_inner joins).2
  have apart : ¬ (s.pc q).Joins := fun joined => stopped.inside circling there joined outside
  obtain ⟨_,early | ⟨joined,_⟩⟩ := circling.fits q
  · rcases stopped.standing wired circling there with joined | done | ⟨spin,_⟩
    · exact False.elim (apart joined)
    · rw [done] at early
      simp only [MainPc.rounds] at early
      omega
    · rw [spin] at early
      simp only [MainPc.rounds] at early
      exact ⟨joins_together joins (by omega),q,there,spin⟩
  · exact False.elim (apart joined)

-- When one PE is in comm_finalize, all have called the last comm_barrier_all.
theorem Stopped.ready (below : k < job.n) (done : s.pc k = .joinWorker) : Ready job s := by
  refine ⟨stopped.idle,fun p here => ?_⟩
  have order := circling.ordered.accountable.signalled.syncSafe.order k below p here
  have returns := (circling.fits k).1
  have calls := (circling.fits p).2
  rw [done] at returns
  simp only [MainPc.rounds] at returns
  rcases stopped.standing wired circling here with joins | done | ⟨spin,_⟩
  · rw [(stopped.waits wired circling here joins).1] at calls
    simp only [MainPc.rounds] at calls
    omega
  · exact done
  · rw [spin] at calls
    simp only [MainPc.rounds] at calls
    omega

-- A PE stays in the loop because the PE in front does, and that is not PE 0.
theorem Stopped.blames (undone : ∀ p < job.n, s.pc p ≠ .joinWorker) (below : k < job.n) (spin : s.pc (job.target k) = .spin) :
    s.pc k = .spin ∧ k ≠ 0 := by
  have empty : readInt (s.system.heaps (job.target k)) job.tokenOffset.toNat = 0 := by
    rcases stopped.standing wired circling (target_inside job k) with joins | done | ⟨_,zero⟩
    · rw [spin] at joins
      cases joins
    · exact False.elim (undone _ (target_inside job k) done)
    · exact zero
  have waiting : ¬ (s.pc k).Passed k := by
    intro passed
    rw [circling.arrived stopped.idle passed] at empty
    cases empty
  rcases stopped.standing wired circling below with joins | done | ⟨also,_⟩
  · rw [(stopped.waits wired circling below joins).1] at waiting
    exact False.elim (waiting trivial)
  · exact False.elim (undone k below done)
  · refine ⟨also,fun zero => waiting ?_⟩
    rw [also]
    exact zero

-- From PE to PE against the ring nobody is left to wait for.
theorem Stopped.behind (undone : ∀ p < job.n, s.pc p ≠ .joinWorker) (below : k + 1 < job.n) : s.pc (k + 1) ≠ .spin := by
  have target : job.target k = k + 1 := Nat.mod_eq_of_lt below
  induction k with
  | zero => exact fun spin => (stopped.blames wired circling undone (by omega) (target ▸ spin)).2 rfl
  | succ k ih =>
    intro spin
    exact ih (by omega) (Nat.mod_eq_of_lt (by omega)) (stopped.blames wired circling undone (by omega) (target ▸ spin)).1

theorem Stopped.none (undone : ∀ p < job.n, s.pc p ≠ .joinWorker) (below : k < job.n) : s.pc k ≠ .spin := by
  intro spin
  cases k with
  | succ k => exact stopped.behind wired circling undone below spin
  | zero =>
    have around : job.n - 1 + 1 = job.n := by omega
    have last : job.target (job.n - 1) = 0 := by
      unfold RingJob.target
      rw [around,Nat.mod_self]
    obtain ⟨also,other⟩ := stopped.blames wired circling undone (k := job.n - 1) (by omega) (last ▸ spin)
    obtain ⟨k,same⟩ := Nat.exists_eq_succ_of_ne_zero other
    rw [same] at also
    exact stopped.behind wired circling undone (by omega) also

end Stuck

-- Short of comm_finalize some thread goes on: the PEs cannot all wait for one another.
theorem proceeds_enabled (wired : ∀ p, job.wired p = some (heaps p)) (circling : Circling job heaps s)
    (working : ∀ q, (s.pc q).Working) (unready : ¬ Ready job s) :
    ∃ event t, (Proceeds job s event ∧ ¬ event.Stops s) ∧ s.step job event = some t := by
  by_contra stuck
  have stopped := circling.stopped working stuck
  have undone : ∀ p < job.n, s.pc p ≠ .joinWorker :=
    fun p below done => unready (stopped.ready wired circling below done)
  rcases stopped.standing wired circling job.positive with joins | done | ⟨spin,_⟩
  · obtain ⟨_,q,there,spin⟩ := stopped.waits wired circling job.positive joins
    exact stopped.none wired circling undone there spin
  · exact undone 0 job.positive done
  · exact stopped.none wired circling undone job.positive spin

-- No thread is joined before all PEs have called the last comm_barrier_all.
theorem Circling.working (circling : Circling job heaps s) (early : ¬ Gathered job s) (p : Nat) : (s.pc p).Working := by
  by_contra joined
  have rounds := joined_rounds joined
  have inside : p < job.n := by
    refine circling.inside p fun first => ?_
    rw [first] at rounds
    cases rounds
  refine early fun q below => late_finalizes ?_
  have order := circling.ordered.accountable.signalled.syncSafe.order p inside q below
  rw [(circling.fits p).1,rounds] at order
  rcases (circling.fits q).2 with same | ⟨_,more⟩
  · omega
  · omega

theorem main_pc (moved : s.main job me prior = some t) : t.pc = (s.go me).pc := by
  unfold RingState.main at moved
  split at moved
  · obtain ⟨_,_,made⟩ := Option.bind_eq_some_iff.mp moved
    cases made
    rfl
  · obtain ⟨_,_,made⟩ := Option.bind_eq_some_iff.mp moved
    cases made
    rfl
  · obtain ⟨_,_,rest⟩ := Option.bind_eq_some_iff.mp moved
    obtain ⟨_,_,made⟩ := Option.bind_eq_some_iff.mp rest
    cases made
    rfl
  · obtain ⟨_,_,rest⟩ := Option.bind_eq_some_iff.mp moved
    split at rest
    · cases rest
    · cases rest
      rfl
  · split at moved
    · cases moved
      rfl
    · cases moved
  · cases moved
    rfl
  · cases moved

theorem working_update {pc : MainPc} (working : ∀ q, (s.pc q).Working) (still : pc.Working) (q : Nat) :
    (Function.update s.pc me pc q).Working := by
  by_cases here : q = me
  · subst q
    rw [Function.update_self]
    exact still
  · rw [Function.update_of_ne here]
    exact working q

theorem step_working {event : RingEvent} (working : ∀ q, (s.pc q).Working) (runs : ¬ event.Stops s)
    (moved : s.step job event = some t) (q : Nat) : (t.pc q).Working := by
  cases event with
  | main me prior =>
    simp only [RingState.step] at moved
    split at moved
    · rw [main_pc moved]
      exact working_update working (working_after (working me) fun stops => runs (Or.inl stops)) q
    · cases moved
  | run event =>
    obtain ⟨system,granted,_,rfl⟩ := ring_run moved
    refine working_update working ?_ q
    rcases onward_cases granted system with same | ⟨joins,same⟩
    · rw [same]
      exact working _
    · rw [same]
      refine working_after (working _) fun stops => ?_
      rw [stops] at joins
      cases joins

-- Nothing is under way any more, and all PEs are in comm_finalize or behind its joins.
structure Closing (job : RingJob) (s : RingState) : Prop extends Idle job.toCluster s.system where
  late : ∀ p < job.n, (s.pc p).rounds = 4

theorem step_closing {event : RingEvent} (closing : Closing job s) (stops : event.Stops s) (moved : s.step job event = some t) :
    Closing job t := by
  cases event with
  | run event => cases stops
  | main me prior =>
    simp only [RingState.step] at moved
    split at moved
    · have gone : t = s.go me := by
        unfold RingState.main at moved
        rcases stops with pc | pc
        · simp only [pc] at moved
          split at moved
          · exact (Option.some.inj moved).symm
          · cases moved
        · simp only [pc] at moved
          exact (Option.some.inj moved).symm
      subst t
      refine ⟨closing.toIdle,fun p below => ?_⟩
      by_cases here : p = me
      · subst p
        simp only [RingState.go,Function.update_self]
        rcases stops with pc | pc <;> rw [pc] <;> rfl
      · simp only [RingState.go,Function.update_of_ne here]
        exact closing.late p below
    · cases moved

theorem closing_enabled (closing : Closing job s) (undone : ¬ ∀ p < job.n, s.pc p = .done) :
    ∃ event t, (Proceeds job s event ∧ event.Stops s) ∧ s.step job event = some t := by
  obtain ⟨p,some⟩ := not_forall.mp undone
  obtain ⟨below,unended⟩ := Classical.not_imp.mp some
  have late := closing.late p below
  have stands : s.pc p = .joinWorker ∨ s.pc p = .joinComm := by
    cases pc : s.pc p with
    | joinWorker => exact Or.inl rfl
    | joinComm => exact Or.inr rfl
    | done => exact False.elim (unended pc)
    | _ =>
      rw [pc] at late
      cases late
  refine ⟨.main p 0,s.go p,⟨trivial,stands⟩,?_⟩
  simp only [RingState.step,if_pos below]
  unfold RingState.main
  rcases stands with pc | pc
  · simp only [pc,closing.busy p below,Option.isNone_none,if_true]
  · simp only [pc]

-- However the threads take turns, every PE comes round to shmem_finalize: until all have, no
-- thread is joined and some thread goes on, and then the run can be carried on to the end
-- of main on every PE, where all tokens have come round and nothing is under way.
structure ComesRound (job : RingJob) (s : RingState) : Prop where
  bounded : ∀ more t, (rings job).Meets (Proceeds job) s more → (rings job).run s more = some t →
    more.length + t.outstanding job ≤ s.outstanding job ∧
    (Gathered job t ∨ (∀ p, (t.pc p).Working) ∧ ∃ event u, Proceeds job t event ∧ t.step job event = some u)
  settles : ¬ Gathered job s → ∃ more t, (rings job).Meets (Proceeds job) s more ∧ (rings job).run s more = some t ∧
    Finished job t ∧ InTurn job t

theorem Circling.settles (circling : Circling job heaps s) (wired : ∀ p, job.wired p = some (heaps p))
    (working : ∀ q, (s.pc q).Working) : ∃ more t, (rings job).Meets (Proceeds job) s more ∧ (rings job).run s more = some t ∧
      Finished job t ∧ InTurn job t := by
  let Runs : RingState → Prop := fun s => Circling job heaps s ∧ ∀ q, (s.pc q).Working
  let Ends : RingState → Prop := fun s => Circling job heaps s ∧ Closing job s
  let runs : RingState → RingEvent → Prop := fun s event => Proceeds job s event ∧ ¬ event.Stops s
  let joins : RingState → RingEvent → Prop := fun s event => Proceeds job s event ∧ event.Stops s
  have keptRuns : ∀ s event t, Runs s → runs s event → (rings job).step s event = some t → Runs t :=
    fun _ _ _ before met moved => ⟨step_circling wired before.1 met.1.carrying moved,step_working before.2 met.2 moved⟩
  have lowerRuns : ∀ s event t, Runs s → runs s event → (rings job).step s event = some t → t.outstanding job < s.outstanding job :=
    fun _ _ _ before met moved => step_lower before.1 met.1 moved
  have keptEnds : ∀ s event t, Ends s → joins s event → (rings job).step s event = some t → Ends t :=
    fun _ _ _ before met moved => ⟨step_circling wired before.1 met.1.carrying moved,step_closing before.2 met.2 moved⟩
  have lowerEnds : ∀ s event t, Ends s → joins s event → (rings job).step s event = some t → t.outstanding job < s.outstanding job :=
    fun _ _ _ before met moved => step_lower before.1 met.1 moved
  -- first everything but the joins, and then the joins
  obtain ⟨first,t,without,ran,⟨circling',_⟩,ready⟩ := Guarded.Machine.run_settles keptRuns lowerRuns
    (fun _ before unready => proceeds_enabled wired before.1 before.2 unready) ⟨circling,working⟩
  have closing : Closing job t := ⟨ready.toIdle,fun p below => by rw [ready.ready p below]; rfl⟩
  obtain ⟨second,u,only,later,⟨circling'',closed⟩,done⟩ := Guarded.Machine.run_settles keptEnds lowerEnds
    (fun _ before undone => closing_enabled before.2 undone) ⟨circling',closing⟩
  refine ⟨first ++ second,u,(Guarded.Machine.meets_append first second).mpr ⟨?_,?_⟩,?_,⟨closed.toIdle,done⟩,circling''.inTurn⟩
  · exact Guarded.Machine.meets_mono (fun _ _ both => both.1) without
  · intro v also
    obtain rfl := Option.some.inj (ran.symm.trans also)
    exact Guarded.Machine.meets_mono (fun _ _ both => both.1) only
  · rw [Guarded.Machine.run_append,ran]
    exact later

theorem ring_comes_round (job : RingJob) (wired : ∀ p, job.wired p = some (heaps p)) (events : List RingEvent)
    (meets : (rings job).Meets (Carrying job) (RingState.start heaps) events)
    (ran : (rings job).run (RingState.start heaps) events = some s) : InTurn job s ∧ ComesRound job s := by
  have circling : Circling job heaps s := Guarded.Machine.run_keeps
    (fun _ _ _ circling carrying moved => step_circling wired circling carrying moved) (start_circling job heaps) meets ran
  have kept : ∀ s event t, Circling job heaps s → Proceeds job s event → (rings job).step s event = some t →
      Circling job heaps t := fun _ _ _ circling proceeds moved => step_circling wired circling proceeds.carrying moved
  have lower : ∀ s event t, Circling job heaps s → Proceeds job s event → (rings job).step s event = some t →
      t.outstanding job < s.outstanding job := fun _ _ _ circling proceeds moved => step_lower circling proceeds moved
  refine ⟨circling.inTurn,?_,fun early => circling.settles wired (circling.working early)⟩
  intro more t proceeds later
  refine ⟨Guarded.Machine.run_descends kept lower circling proceeds later,?_⟩
  have after := Guarded.Machine.run_keeps kept circling proceeds later
  by_cases gathered : Gathered job t
  · exact Or.inl gathered
  · have working := after.working gathered
    have unready : ¬ Ready job t := fun ready => gathered fun p below => by rw [ready.ready p below]; trivial
    obtain ⟨event,u,⟨proceeds,_⟩,moved⟩ := proceeds_enabled wired after working unready
    exact Or.inr ⟨working,event,u,proceeds,moved⟩

end Runs

def closeRing : RingJob := {closeCluster with
  linked := close_wired
  libc := closeTeam.libc
  region := closeTeam.region
  positive := Nat.zero_lt_two
  front := rfl
  room _ := Nat.le_of_ble_eq_true rfl
  clean _ := rfl
  fits _ := Nat.le_of_ble_eq_true rfl}

-- The token has been to PE 1 and is back.
theorem ring_comes_round_two : ∃ heaps s, (rings closeRing).run (RingState.start heaps)
      ([.main 0 0,.main 1 0] ++ ([1,1,0,0,0,0,0,1,1,1].map fun me => .run (.sync me 0)) ++ [.main 0 0,.main 1 0] ++
        ([1,1,0,0,0,0,0,1,1,1].map fun me => .run (.sync me 0)) ++ [.main 0 0,.main 1 0,.main 1 0,.main 0 0]) = some s ∧
    s.pc 0 = .together ∧ InTurn closeRing s ∧ ComesRound closeRing s := by
  let heaps : Nat → Session := fun _ => (closeRing.wired 0).get (by decide +kernel)
  let barrier : List RingEvent := [1,1,0,0,0,0,0,1,1,1].map fun me => .run (.sync me 0)
  let events : List RingEvent := [.main 0 0,.main 1 0] ++ barrier ++ [.main 0 0,.main 1 0] ++ barrier ++
    [.main 0 0,.main 1 0,.main 1 0,.main 0 0]
  have back : ((rings closeRing).run (RingState.start heaps) events).map (fun s => s.pc 0) = some .together := by decide +kernel
  have meets : (rings closeRing).Meets (Carrying closeRing) (RingState.start heaps) events := by decide +kernel
  obtain ⟨s,ran,pc⟩ := Option.map_eq_some_iff.mp back
  exact ⟨heaps,s,ran,pc,ring_comes_round closeRing (fun _ => (Option.some_get _).symm) events meets ran⟩

end OpenShmem
