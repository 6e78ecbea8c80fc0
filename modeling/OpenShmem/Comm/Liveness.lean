import OpenShmem.Comm.Drain
import OpenShmem.Comm.Completion

namespace OpenShmem
open Totals

-- The barrier's promises about the threads, queues and sockets that carry its signals.
structure SyncSafe (cluster : Cluster) (s : System) : Prop where
  order : ∀ i < cluster.n, ∀ j < cluster.n, (s.pes i).returns ≤ (s.pes j).calls
  single : ∀ pe slot, Used cluster.n pe slot → s.sent cluster pe slot ≤ s.got cluster pe slot + 1
  empty : ∀ pe slot, Used cluster.n pe slot → s.got cluster pe slot < s.sent cluster pe slot → s.slots cluster pe slot = 0

-- The steps that a thread has before it in comm_barrier_all.
def Pc.left (n : Nat) : Pc → Nat
  | .outside => 0
  | .collect i => 2 * (n - i) + n + 1
  | .clear i => 2 * (n - i) + n
  | .release i => n - i + 1
  | .arrive => 4
  | .await => 3
  | .reset => 2
  | .leaving => 1

def Pe.left (n rounds : Nat) (pe : Pe) : Nat := (rounds - pe.calls) * (3 * n + 6) + pe.pc.left n

-- A step of the barrier puts a packet of 33 bytes at most.
def System.outstanding (cluster : Cluster) (rounds : Nat) (s : System) : Nat :=
  35 * total cluster.n (fun p => (s.pes p).left cluster.n rounds) + s.backlog cluster

-- A step of some thread, where no application calls more often than `rounds` times.
def Event.Rounds (rounds : Nat) (s : System) : Event → Prop
  | .sync me _ => (s.pes me).pc = .outside → (s.pes me).calls < rounds
  | event => event.Carries

variable {cluster : Cluster} {s t : System} {me pe slot i k rounds n : Nat}

theorem Signalled.syncSafe (signalled : Signalled cluster s) : SyncSafe cluster s := by
  obtain ⟨b,abstracts,balanced,_⟩ := signalled.barrier
  have capacity : ∀ pe slot, Used cluster.n pe slot → held (s.slots cluster pe slot) + b.inFlight pe slot ≤ 1 := by
    intro pe slot used
    rw [← abstracts.slots pe slot used]
    obtain ⟨zero,own⟩ := balanced.capacity used.1 used.2.1
    rcases used.2.2 with rfl | rfl
    · exact zero
    · exact own
  refine ⟨?_,?_,?_⟩
  · intro i insideI j insideJ
    rw [← abstracts.returns,← abstracts.calls]
    exact balanced.returns_le insideI insideJ
  · intro pe slot used
    have flights := abstracts.flights pe slot used
    have one := capacity pe slot used
    omega
  · intro pe slot used waiting
    have flights := abstracts.flights pe slot used
    have one := capacity pe slot used
    have none : held (s.slots cluster pe slot) = 0 := by omega
    unfold held at none
    split at none
    · assumption
    · cases none

theorem run_signalled (wired : cluster.WiredUp)
    (meets : (systems cluster).Meets (fun s event => (Reliable cluster s event ∧ PayloadFound event) ∧
      Beside cluster event) System.start events) (ran : (systems cluster).run System.start events = some s) : Signalled cluster s :=
  Guarded.Machine.run_keeps (fun _ _ _ signalled met moved => step_signalled signalled met.1.1 met.1.2 met.2 moved)
    (start_completing wired).signalled meets ran

-- The barrier keeps the PEs together whatever carries its signals, and no signal is put
-- onto another.
theorem sync_all_safe (cluster : Cluster) (wired : cluster.WiredUp) (events : List Event)
    (meets : (systems cluster).Meets (fun s event => (Reliable cluster s event ∧ PayloadFound event) ∧ Beside cluster event)
      System.start events)
    (ran : (systems cluster).run System.start events = some s) : SyncSafe cluster s :=
  (run_signalled wired meets ran).syncSafe

-- PE 1's arrival stands in the send queue.
theorem sync_all_safe_two : ∃ s, (systems pairCluster).run System.start [.sync 1 0,.sync 1 6,.sync 0 0] = some s ∧
    SyncSafe pairCluster s := by
  let events : List Event := [.sync 1 0,.sync 1 6,.sync 0 0]
  obtain ⟨s,ran⟩ := Option.isSome_iff_exists.mp
    (by decide +kernel : ((systems pairCluster).run System.start events).isSome)
  exact ⟨s,ran,sync_all_safe pairCluster pair_wired events (by decide +kernel) ran⟩

theorem left_releaseFrom (n i : Nat) : (releaseFrom n i).left n = n - i + 1 := by
  unfold releaseFrom
  split
  · rfl
  · rename_i done
    have none : n - i = 0 := by omega
    rw [none]
    rfl

theorem left_collectFrom (n i : Nat) : (collectFrom n i).left n ≤ 2 * (n - i) + n + 1 := by
  unfold collectFrom
  split
  · exact Nat.le_refl _
  · rw [left_releaseFrom]
    omega

-- Each step of the calling thread is one less.
theorem left_moves {slots : Nat → BitVec 32} {pc next : Pc} {effect : Effect} (bound : me = 0 → pc.Root n)
    (inside : pc ≠ .outside) (moved : commBarrierAll n me slots pc = some (next,effect)) (own : me ≠ 0 → pc.Peer) :
    next.left n < pc.left n := by
  cases pc with
  | outside => exact False.elim (inside rfl)
  | collect i =>
    simp only [commBarrierAll] at moved
    split at moved <;> cases moved
    exact Nat.lt_succ_self _
  | clear i =>
    cases moved
    have range : i < n := by
      by_cases zero : me = 0
      · exact (bound zero).2
      · exact False.elim (own zero)
    have more := left_collectFrom n (i+1)
    have now : (Pc.clear i).left n = 2 * (n - i) + n := rfl
    omega
  | release i =>
    cases moved
    have range : i < n := by
      by_cases zero : me = 0
      · exact (bound zero).2
      · exact False.elim (own zero)
    rw [left_releaseFrom]
    simp only [Pc.left]
    omega
  | await =>
    simp only [commBarrierAll] at moved
    split at moved <;> cases moved
    exact Nat.lt_succ_self _
  | _ =>
    cases moved
    exact Nat.lt_succ_self _

theorem left_call {slots : Nat → BitVec 32} {next : Pc} {effect : Effect}
    (moved : commBarrierAll n me slots .outside = some (next,effect)) : next.left n < 3 * n + 6 ∧ effect = .call := by
  cases moved
  refine ⟨?_,rfl⟩
  split
  · have more := left_collectFrom n 1
    omega
  · simp only [Pc.left]
    omega

theorem backlog_same (inside : me < cluster.n) {entry : Pe} (same : entry.load = (s.pes me).load) :
    (s.setPe me entry).backlog cluster = s.backlog cluster := by
  have change := backlog_setPe (s := s) inside entry
  omega

theorem perform_backlog (inside : me < cluster.n) (ran : s.perform cluster me prior effect = some t) :
    t.backlog cluster ≤ s.backlog cluster + 34 := by
  cases effect with
  | nothing =>
    cases ran
    exact Nat.le_add_right _ _
  | call =>
    cases ran
    exact Nat.le_trans (Nat.le_of_eq (backlog_same inside (by rfl))) (Nat.le_add_right _ _)
  | ret =>
    cases ran
    exact Nat.le_trans (Nat.le_of_eq (backlog_same inside (by rfl))) (Nat.le_add_right _ _)
  | zero slot =>
    cases ran
    rw [backlog_write]
    exact Nat.le_add_right _ _
  | signal pe slot => exact backlog_commPut inside ran

-- The threads that carry something on leave the applications where they are.
theorem carried_thread (piped : Piped cluster s) (carried : Carried cluster s event) (moved : s.step cluster event = some t) (p : Nat) :
    (t.pes p).pc = (s.pes p).pc ∧ (t.pes p).calls = (s.pes p).calls ∧ (t.pes p).returns = (s.pes p).returns := by
  unfold System.step at moved
  split at moved
  · rename_i inside
    cases event with
    | dequeue me =>
      simp only [System.move] at moved
      split at moved
      · cases moved
        exact setPe_thread (s := s) (by rfl) (by rfl) (by rfl) p
      · cases moved
    | execute me contents prior =>
      obtain ⟨job,busy,ran⟩ := Option.bind_eq_some_iff.mp moved
      have before : ((s.setPe me {s.pes me with busy := none}).pes p).pc = (s.pes p).pc ∧
          ((s.setPe me {s.pes me with busy := none}).pes p).calls = (s.pes p).calls ∧
          ((s.setPe me {s.pes me with busy := none}).pes p).returns = (s.pes p).returns :=
        setPe_thread (by rfl) (by rfl) (by rfl) p
      rcases execute_cases piped inside busy ran with ⟨_,_,_,put⟩ | ⟨_,_,_,_,rfl⟩
      · obtain ⟨pc,calls,returns,_⟩ := commPut_thread put p
        exact ⟨pc.trans before.1,calls.trans before.2.1,returns.trans before.2.2⟩
      · exact before
    | send me result =>
      have own : me < cluster.n := inside
      obtain ⟨pe,packet,rest,stamp,indices,_,_,rfl⟩ := send_cases piped own carried.1.1 moved
      exact setPe_thread (s := s) (by rfl) (by rfl) (by rfl) p
    | receive me index reads =>
      have own : me < cluster.n := inside
      obtain ⟨peer,buffer,peers,taken⟩ := receive_carries own carried moved
      obtain ⟨packets,streams,_,_⟩ := piped.flow peer me peers
      obtain ⟨packet,rest,rfl,rfl⟩ := taken packets streams
      exact setPe_thread (s := s) (by rfl) (by rfl) (by rfl) p
    | _ => cases carried.2
  · cases moved

theorem carried_outstanding (piped : Piped cluster s) (carried : Carried cluster s event) (moved : s.step cluster event = some t) :
    t.outstanding cluster rounds < s.outstanding cluster rounds := by
  have lower := carried_backlog piped carried moved
  have same : total cluster.n (fun p => (t.pes p).left cluster.n rounds) = total cluster.n fun p => (s.pes p).left cluster.n rounds := by
    refine total_congr fun p _ => ?_
    obtain ⟨pc,calls,_⟩ := carried_thread piped carried moved p
    simp only [Pe.left,pc,calls]
  unfold System.outstanding
  omega

-- What a step of comm_barrier_all does to the application threads.
theorem sync_left (signalled : Signalled cluster s) (inside : me < cluster.n)
    (within : (s.pes me).pc = .outside → (s.pes me).calls < rounds)
    (moved : commBarrierAll cluster.n me (s.slots cluster me) (s.pes me).pc = some (next,effect))
    (ran : (s.setPe me {s.pes me with pc := next}).perform cluster me prior effect = some t) :
    (t.pes me).left cluster.n rounds < (s.pes me).left cluster.n rounds ∧
      (∀ p, p ≠ me → (t.pes p).left cluster.n rounds = (s.pes p).left cluster.n rounds) ∧
      ((∀ p, (s.pes p).calls ≤ rounds) → ∀ p, (t.pes p).calls ≤ rounds) := by
  obtain ⟨b,abstracts,balanced,_⟩ := signalled.barrier
  have thread := perform_thread ran
  have others : ∀ p, p ≠ me → (t.pes p).pc = (s.pes p).pc ∧ (t.pes p).calls = (s.pes p).calls := by
    intro p away
    obtain ⟨pc,calls,_⟩ := thread p
    rw [if_neg away] at calls
    simp only [pes_setPe,Function.update_of_ne away] at pc calls
    exact ⟨pc,calls⟩
  obtain ⟨pc,calls,_⟩ := thread me
  simp only [pes_setPe,Function.update_self,if_true] at pc calls
  refine ⟨?_,?_,?_⟩
  · unfold Pe.left
    rw [pc,calls]
    by_cases outside : (s.pes me).pc = .outside
    · have room := within outside
      rw [outside] at moved ⊢
      obtain ⟨short,rfl⟩ := left_call moved
      obtain ⟨more,split⟩ : ∃ more, rounds - (s.pes me).calls = more + 1 := ⟨rounds - (s.pes me).calls - 1,by omega⟩
      have less : rounds - ((s.pes me).calls + Effect.call.calls) = more := by
        simp only [Effect.calls]
        omega
      rw [less,split,Nat.succ_mul more]
      omega
    · have none : effect.calls = 0 := by
        cases effect with
        | call => exact False.elim (outside (call_outside moved))
        | _ => rfl
      have less := left_moves (fun zero => by rw [← abstracts.pc,zero]; exact balanced.root) outside moved
        (fun other => by rw [← abstracts.pc]; exact balanced.peers me (Nat.pos_of_ne_zero other) inside)
      rw [none,Nat.add_zero]
      exact Nat.add_lt_add_left less _
  · intro p away
    unfold Pe.left
    rw [(others p away).1,(others p away).2]
  · intro bounded p
    by_cases here : p = me
    · subst p
      rw [calls]
      cases effect with
      | call =>
        have room := within (call_outside moved)
        exact room
      | _ => exact bounded me
    · rw [(others p here).2]
      exact bounded p

theorem sync_outstanding (signalled : Signalled cluster s) (within : Event.Rounds rounds s (.sync me prior))
    (moved : s.step cluster (.sync me prior) = some t) : t.outstanding cluster rounds < s.outstanding cluster rounds ∧
      ((∀ p, (s.pes p).calls ≤ rounds) → ∀ p, (t.pes p).calls ≤ rounds) := by
  unfold System.step at moved
  split at moved
  · rename_i inside
    have own : me < cluster.n := inside
    obtain ⟨⟨next,effect⟩,ran,performed⟩ := Option.bind_eq_some_iff.mp moved
    obtain ⟨less,others,bounded⟩ := sync_left signalled own within ran performed
    refine ⟨?_,bounded⟩
    have cost := perform_backlog own performed
    have same : (s.setPe me {s.pes me with pc := next}).backlog cluster = s.backlog cluster := backlog_same own (by rfl)
    dsimp only at cost same
    have threads := total_update (f := fun p => (s.pes p).left cluster.n rounds) (g := fun p => (t.pes p).left cluster.n rounds)
      own others
    unfold System.outstanding
    omega
  · cases moved

theorem sync_enabled (signalled : Signalled cluster s) (inside : me < cluster.n)
    (moves : ∃ next, commBarrierAll cluster.n me (s.slots cluster me) (s.pes me).pc = some next) (prior : BitVec 64) :
    ∃ t, s.step cluster (.sync me prior) = some t := by
  obtain ⟨⟨next,effect⟩,moved⟩ := moves
  obtain ⟨b,abstracts,balanced,_⟩ := signalled.barrier
  have signals := sync_signals abstracts balanced inside moved
  have performs : ∃ t, (s.setPe me {s.pes me with pc := next}).perform cluster me prior effect = some t := by
    cases effect with
    | signal pe slot => exact commPut_enabled signalled.wired _ _ _ _ (signals.signal pe slot rfl).1.inside
    | _ => exact ⟨_,rfl⟩
  obtain ⟨t,performed⟩ := performs
  refine ⟨t,?_⟩
  unfold System.step
  rw [if_pos (show (Event.sync me prior).me < cluster.n from inside)]
  simp only [System.move,moved,Option.bind_eq_bind,Option.bind_some]
  exact performed

-- With nothing under way every signal that was put has arrived.
theorem Idle.sent (idle : Idle cluster s) (piped : Piped cluster s) (used : Used cluster.n pe slot) :
    s.sent cluster pe slot = s.got cluster pe slot := by
  unfold System.sent System.got System.puts
  split
  · rw [List.countP_map]
    rfl
  · rename_i other
    have below : signaller pe slot < cluster.n := by
      have range := used.2.1
      unfold signaller
      omega
    have applied := idle.applied piped ⟨below,used.inside,other⟩
    have updates := List.countP_map (p := fun written : BitVec 64 × List UInt8 => decide (written.1 = cluster.slotOffset slot))
      (f := Update.written) (l := s.updates (signaller pe slot) pe)
    have calls := List.countP_map (p := fun written : BitVec 64 × List UInt8 => decide (written.1 = cluster.slotOffset slot))
      (f := RemotePut.written) (l := s.calls (signaller pe slot) pe)
    rw [applied,calls] at updates
    exact updates

theorem Current.used {b : Barrier} {flight : Flight} (current : Current n b flight) : Used n flight.pe flight.slot := by
  rcases current with ⟨zero,above,below,_⟩ | ⟨same,above,below,_⟩
  · exact ⟨above,below,Or.inl zero⟩
  · exact ⟨same ▸ above,same ▸ below,Or.inr same.symm⟩

theorem commPut_elsewhere (ran : s.commPut cluster me i dest src pe prior = some t) (away : k ≠ me) : t.pes k = s.pes k := by
  obtain ⟨_,⟨_,_,_,_,_,rfl⟩ | ⟨_,rfl⟩⟩ := commPut_moves ran
  · rfl
  · exact Function.update_of_ne away _ _

-- A step is one PE's.
theorem step_elsewhere (moved : s.step cluster event = some t) (away : k ≠ event.me) : t.pes k = s.pes k := by
  unfold System.step at moved
  split at moved
  · cases event with
    | put me dest src pe prior =>
      simp only [System.move] at moved
      split at moved
      · have same := commPut_elsewhere moved away
        exact same
      · cases moved
    | putNbi me dest size pe =>
      simp only [System.move] at moved
      split at moved
      · cases moved
        exact Function.update_of_ne away _ _
      · cases moved
    | sync me prior =>
      obtain ⟨⟨pc,effect⟩,_,performed⟩ := Option.bind_eq_some_iff.mp moved
      have before : (s.setPe me {s.pes me with pc := pc}).pes k = s.pes k := Function.update_of_ne away _ _
      rw [← before]
      cases effect with
      | signal pe slot => exact commPut_elsewhere performed away
      | nothing =>
        cases performed
        rfl
      | zero slot =>
        cases performed
        rfl
      | _ =>
        cases performed
        exact Function.update_of_ne away _ _
    | dequeue me =>
      simp only [System.move] at moved
      split at moved
      · cases moved
        exact Function.update_of_ne away _ _
      · cases moved
    | execute me contents prior =>
      obtain ⟨job,_,ran⟩ := Option.bind_eq_some_iff.mp moved
      have before : (s.setPe me {s.pes me with busy := none}).pes k = s.pes k := Function.update_of_ne away _ _
      rw [← before]
      unfold System.execute at ran
      split at ran
      · split at ran
        · exact commPut_elsewhere ran away
        · cases ran
      · cases ran
        rfl
    | send me result =>
      obtain ⟨_,_,made⟩ := Option.bind_eq_some_iff.mp moved
      obtain ⟨_,_,written⟩ := Option.bind_eq_some_iff.mp made
      split at written
      · cases written
        exact Function.update_of_ne away _ _
      · cases written
    | receive me index reads =>
      obtain ⟨_,_,received⟩ := Option.bind_eq_some_iff.mp moved
      obtain ⟨_,_,made⟩ := Option.bind_eq_some_iff.mp received
      cases made
      exact Function.update_of_ne away _ _
  · cases moved

theorem step_inside (moved : s.step cluster event = some t) : event.me < cluster.n := by
  unfold System.step at moved
  split at moved
  · assumption
  · cases moved

end OpenShmem
