import OpenShmem.Comm.Liveness

namespace OpenShmem
open ByteMemory (memcpy)

variable {n p q : Nat} {b : Barrier}

-- A PE behind its arrival in comm_barrier_all goes on, or waits for its release.
theorem Balanced.stuck_peer (balanced : Balanced n b) (above : 0 < q) (below : q < n) (busy : b.pc q ≠ .outside)
    (stuck : commBarrierAll n q (b.pSync q) (b.pc q) = none) : b.pc q = .await ∧ b.pSync q q = 0 := by
  have peer := balanced.peers q above below
  cases pc : b.pc q with
  | outside => exact False.elim (busy pc)
  | await =>
    refine ⟨rfl,?_⟩
    by_contra full
    rw [pc] at stuck
    simp only [commBarrierAll,if_neg full] at stuck
    cases stuck
  | collect i => rw [pc] at peer; cases peer
  | clear i => rw [pc] at peer; cases peer
  | release i => rw [pc] at peer; cases peer
  | _ =>
    rw [pc] at stuck
    cases stuck

-- PE 0 goes on, or waits for an arrival.
theorem Balanced.stuck_root (balanced : Balanced n b) (busy : b.pc 0 ≠ .outside)
    (stuck : commBarrierAll n 0 (b.pSync 0) (b.pc 0) = none) :
    ∃ i, 0 < i ∧ i < n ∧ b.pc 0 = .collect i ∧ b.pSync 0 i = 0 := by
  have root := balanced.root
  cases pc : b.pc 0 with
  | outside => exact False.elim (busy pc)
  | collect i =>
    rw [pc] at root
    refine ⟨i,root.1,root.2,rfl,?_⟩
    by_contra full
    rw [pc] at stuck
    simp only [commBarrierAll,if_neg full] at stuck
    cases stuck
  | arrive => rw [pc] at root; cases root
  | await => rw [pc] at root; cases root
  | reset => rw [pc] at root; cases root
  | _ =>
    rw [pc] at stuck
    cases stuck

-- With no signal on its way PE 0 waits for a PE that has not called yet.
theorem Balanced.root_waits (balanced : Balanced n b) (still : ∀ pe slot, b.inFlight pe slot = 0)
    (stuck : ∀ q < n, b.pc q ≠ .outside → commBarrierAll n q (b.pSync q) (b.pc q) = none) (inside : 0 < n)
    (busy : b.pc 0 ≠ .outside) : ∃ q < n, b.pc q = .outside ∧ b.calls q + 1 = b.calls 0 := by
  obtain ⟨i,above,below,collecting,empty⟩ := balanced.stuck_root busy (stuck 0 inside busy)
  have arrivals := balanced.arrivals i above below
  have releases := balanced.releases i above below
  have called := balanced.busy 0 inside busy
  have zero : held (0 : BitVec 32) = 0 := rfl
  rw [still,empty] at arrivals
  rw [still] at releases
  have behind : b.collected i = b.calls 0 - 1 := by simp [Barrier.collected,collecting,Pc.collected]
  have unreleased : b.released i = b.calls 0 - 1 := by simp [Barrier.released,collecting,Pc.released]
  have outside : b.pc i = .outside := by
    by_contra within
    obtain ⟨waiting,none⟩ := balanced.stuck_peer above below within (stuck i below within)
    have arrived : b.arrived i = b.calls i := by simp [Barrier.arrived,waiting,Pc.arrived]
    have awaited : b.awaited i = b.calls i - 1 := by simp [Barrier.awaited,waiting,Pc.awaited]
    have some := balanced.busy i below within
    rw [none] at releases
    omega
  have arrived : b.arrived i = b.calls i := by simp [Barrier.arrived,outside,Pc.arrived]
  exact ⟨i,below,outside,by omega⟩

-- So does every other PE that waits.
theorem Balanced.waits (balanced : Balanced n b) (still : ∀ pe slot, b.inFlight pe slot = 0)
    (stuck : ∀ q < n, b.pc q ≠ .outside → commBarrierAll n q (b.pSync q) (b.pc q) = none) (inside : p < n)
    (busy : b.pc p ≠ .outside) : ∃ q < n, b.pc q = .outside ∧ b.calls q + 1 = b.calls p := by
  have positive : 0 < n := Nat.lt_of_le_of_lt (Nat.zero_le _) inside
  rcases Nat.eq_zero_or_pos p with rfl | above
  · exact balanced.root_waits still stuck positive busy
  · obtain ⟨waiting,empty⟩ := balanced.stuck_peer above inside busy (stuck p inside busy)
    have releases := balanced.releases p above inside
    have called := balanced.busy p inside busy
    have zero : held (0 : BitVec 32) = 0 := rfl
    have awaited : b.awaited p = b.calls p - 1 := by simp [Barrier.awaited,waiting,Pc.awaited]
    rw [still,empty] at releases
    by_cases outside : b.pc 0 = .outside
    · have released : b.released p = b.calls 0 := by simp [Barrier.released,outside,Pc.released]
      exact ⟨0,positive,outside,by omega⟩
    · obtain ⟨i,_,_,collecting,_⟩ := balanced.stuck_root outside (stuck 0 positive outside)
      have released : b.released p = b.calls 0 - 1 := by simp [Barrier.released,collecting,Pc.released]
      have some := balanced.busy 0 positive outside
      obtain ⟨q,below,free,behind⟩ := balanced.root_waits still stuck positive outside
      exact ⟨q,below,free,by omega⟩

variable {cluster : Cluster} {s t : System} {event : Event} {me pe : Nat}

-- Where nothing is under way and no thread in comm_barrier_all has a step, each of them
-- waits for a PE that has called it once less and is not in it.
theorem Signalled.waits (signalled : Signalled cluster s) (idle : Idle cluster s)
    (stuck : ∀ q < cluster.n, (s.pes q).pc ≠ .outside → s.step cluster (.sync q 0) = none) (inside : p < cluster.n)
    (busy : (s.pes p).pc ≠ .outside) : ∃ q < cluster.n, (s.pes q).pc = .outside ∧ (s.pes q).calls + 1 = (s.pes p).calls := by
  obtain ⟨b,abstracts,balanced,tagged⟩ := signalled.barrier
  have none : b.flights = [] := by
    by_contra some
    obtain ⟨flight,member⟩ := List.exists_mem_of_ne_nil _ some
    have used := (tagged.flights flight member).used
    have flights := abstracts.flights _ _ used
    have arrived := idle.sent signalled.toPiped used
    have positive := mem_inFlight member
    omega
  have still : ∀ pe slot, b.inFlight pe slot = 0 := by
    intro pe slot
    simp [Barrier.inFlight,none]
  have waiting : ∀ q < cluster.n, b.pc q ≠ .outside → commBarrierAll cluster.n q (b.pSync q) (b.pc q) = Option.none := by
    intro q below within
    rw [abstracts.pc] at within
    by_contra moves
    obtain ⟨next,moved⟩ := Option.ne_none_iff_exists'.mp moves
    rw [← commBarrierAll_congr balanced below (abstracts.slots q),abstracts.pc] at moved
    obtain ⟨t,stepped⟩ := sync_enabled signalled below ⟨next,moved⟩ 0
    rw [stuck q below within] at stepped
    cases stepped
  obtain ⟨q,below,outside,behind⟩ := balanced.waits still waiting inside (by rw [abstracts.pc]; exact busy)
  rw [abstracts.pc] at outside
  rw [abstracts.calls,abstracts.calls] at behind
  exact ⟨q,below,outside,behind⟩

-- What an application asks for.
def Event.issues (s : System) : Event → List Issue
  | .put me dest src pe _ => [⟨me,pe,dest,src.bytes.length,.buffer src.bytes,(s.pes me).calls⟩]
  | .putNbi me dest size pe => [⟨me,pe,dest,size.toNat,.caller,(s.pes me).calls⟩]
  | _ => []

-- PE `me` writes nothing, or once into a heap of its node, and what was written is logged.
def Writes (cluster : Cluster) (me : Nat) (s t : System) : Prop :=
  (t.heaps = s.heaps ∧ t.applied = s.applied) ∨
    ∃ update, (update.heap < cluster.n ∧ cluster.node me = cluster.node update.heap) ∧ t.applied = s.applied ++ [update] ∧
      t.heaps = Function.update s.heaps update.heap (memcpy (s.heaps update.heap) update.dest.toNat update.bytes)

theorem Writes.logged (writes : Writes cluster me s t) : s.applied <+: t.applied := by
  rcases writes with ⟨_,same⟩ | ⟨update,_,applied,_⟩
  · rw [same]
  · rw [applied]
    exact List.prefix_append _ _

theorem shared_near (shown : cluster.shared me index = some heap) : heap < cluster.n ∧ cluster.node me = cluster.node heap := by
  have here := List.find?_some shown
  simp only [Bool.decide_and,Bool.and_eq_true,decide_eq_true_eq] at here
  exact ⟨List.mem_range.mp (List.mem_of_find?_eq_some shown),here.1.symm⟩

theorem commPut_logs {origin : Nat} (ran : s.commPut cluster me origin dest src pe prior = some t) :
    t.issued = s.issued ∧ Writes cluster me s t := by
  obtain ⟨_,⟨_,_,heap,_,shown,rfl⟩ | ⟨_,rfl⟩⟩ := commPut_moves ran
  · exact ⟨rfl,Or.inr ⟨⟨me,origin,heap,dest,src.bytes,_⟩,shared_near shown,rfl,rfl⟩⟩
  · exact ⟨rfl,Or.inl ⟨rfl,rfl⟩⟩

-- What a step adds to the logs.
theorem step_logs (moved : s.step cluster event = some t) :
    t.issued = s.issued ++ event.issues s ∧ Writes cluster event.me s t := by
  unfold System.step at moved
  split at moved
  · rename_i inside
    cases event with
    | put me dest src pe prior =>
      simp only [System.move] at moved
      split at moved
      · exact commPut_logs moved
      · cases moved
    | putNbi me dest size pe =>
      simp only [System.move] at moved
      split at moved
      · cases moved
        exact ⟨rfl,Or.inl ⟨rfl,rfl⟩⟩
      · cases moved
    | sync me prior =>
      obtain ⟨⟨pc,effect⟩,_,performed⟩ := Option.bind_eq_some_iff.mp moved
      simp only [Event.issues,List.append_nil]
      cases effect with
      | signal pe slot =>
        have logs := commPut_logs performed
        exact logs
      | zero slot =>
        cases performed
        exact ⟨rfl,Or.inr ⟨⟨me,me,me,_,_,_⟩,⟨inside,rfl⟩,rfl,rfl⟩⟩
      | _ =>
        cases performed
        exact ⟨rfl,Or.inl ⟨rfl,rfl⟩⟩
    | dequeue me =>
      simp only [System.move] at moved
      split at moved
      · cases moved
        exact ⟨(List.append_nil _).symm,Or.inl ⟨rfl,rfl⟩⟩
      · cases moved
    | execute me contents prior =>
      obtain ⟨job,_,ran⟩ := Option.bind_eq_some_iff.mp moved
      simp only [Event.issues,List.append_nil]
      unfold System.execute at ran
      split at ran
      · split at ran
        · have logs := commPut_logs ran
          exact logs
        · cases ran
      · cases ran
        exact ⟨rfl,Or.inl ⟨rfl,rfl⟩⟩
    | send me result =>
      obtain ⟨_,_,made⟩ := Option.bind_eq_some_iff.mp moved
      obtain ⟨_,_,written⟩ := Option.bind_eq_some_iff.mp made
      split at written
      · cases written
        exact ⟨(List.append_nil _).symm,Or.inl ⟨rfl,rfl⟩⟩
      · cases written
    | receive me index reads =>
      obtain ⟨_,_,received⟩ := Option.bind_eq_some_iff.mp moved
      obtain ⟨_,_,made⟩ := Option.bind_eq_some_iff.mp received
      cases made
      exact ⟨(List.append_nil _).symm,Or.inl ⟨rfl,rfl⟩⟩
  · cases moved

end OpenShmem
