import OpenShmem.Comm.Signals

namespace OpenShmem

-- What a PE has put before it calls comm_barrier_all that the barrier's signals do not
-- push ahead of them: its own jobs, and puts to a third PE on another node.
def Settled (cluster : Cluster) (s : System) (me : Nat) : Prop :=
  (∀ job ∈ (s.pes me).jobs, job.originPe ≠ BitVec.ofNat 32 me) ∧
  ∀ k < cluster.n, cluster.node me ≠ cluster.node k → me ≠ 0 → k ≠ 0 →
    (s.updates me k).length = (s.calls me k).length

instance (cluster : Cluster) (s : System) (me : Nat) : Decidable (Settled cluster s me) :=
  inferInstanceAs (Decidable (_ ∧ _))

-- A PE calls only when it is settled.
def Drained (cluster : Cluster) (s : System) : Event → Prop
  | .sync me _ => (s.pes me).pc = .outside → Settled cluster s me
  | _ => True

instance (cluster : Cluster) (s : System) : (event : Event) → Decidable (Drained cluster s event)
  | .put _ _ _ _ _ => inferInstanceAs (Decidable True)
  | .putNbi _ _ _ _ => inferInstanceAs (Decidable True)
  | .sync me _ => inferInstanceAs (Decidable ((s.pes me).pc = .outside → Settled cluster s me))
  | .dequeue _ => inferInstanceAs (Decidable True)
  | .execute _ _ _ => inferInstanceAs (Decidable True)
  | .send _ _ => inferInstanceAs (Decidable True)
  | .receive _ _ _ => inferInstanceAs (Decidable True)

-- The puts of a pair stand in the order of their rounds. No more signals are put on a
-- channel than there were rounds, and what is not applied between two PEs other than 0 is
-- of the round that its origin is in.
structure Timed (cluster : Cluster) (s : System) : Prop where
  rounds : ∀ i k, ∀ put ∈ s.puts cluster i k, put.round ≤ (s.pes i).calls
  sorted : ∀ i k, (s.puts cluster i k).Pairwise (·.round ≤ ·.round)
  early : ∀ pe slot, Used cluster.n pe slot → ∀ r, (s.puts cluster (signaller pe slot) pe).countP
    (fun put => put.dest = cluster.slotOffset slot ∧ put.round ≤ r) ≤ r
  late : ∀ i k, Peers cluster.toJob i k → i ≠ 0 → k ≠ 0 →
    ∀ put ∈ (s.puts cluster i k).drop (s.updates i k).length, put.round = (s.pes i).calls

variable {cluster : Cluster} {s t : System} {me pe slot i k : Nat}

theorem Abstracts.sent_le (abstracts : Abstracts cluster s b) (used : Used cluster.n pe slot) :
    s.sent cluster pe slot ≤ (s.pes (signaller pe slot)).calls := by
  rw [abstracts.sent pe slot used,← abstracts.calls]
  unfold Barrier.put signaller
  split
  · rename_i zero
    subst pe
    exact arrived_le b slot
  · rename_i other
    have same : pe = slot := used.2.2.resolve_left other
    subst slot
    rw [Nat.sub_self]
    exact (released_le b pe 0).2

-- A put of a PE's own threads is of the round that the PE is in.
theorem Timed.put {put : RemotePut} (timed : Timed cluster s) (abstracts : Abstracts cluster t b)
    (puts : ∀ i k, t.puts cluster i k = s.puts cluster i k ++ if me = i ∧ pe = k then [put] else [])
    (round : put.round = (s.pes me).calls) (calls : ∀ p, (t.pes p).calls = (s.pes p).calls)
    (updates : ∀ i k, Peers cluster.toJob i k → t.updates i k = s.updates i k) : Timed cluster t := by
  refine ⟨?_,?_,?_,?_⟩
  · intro a b other member
    rw [puts] at member
    rw [calls]
    rcases List.mem_append.mp member with old | new
    · exact timed.rounds a b other old
    · split at new
      · rename_i here
        cases List.mem_singleton.mp new
        rw [round,here.1]
      · cases new
  · intro a b
    rw [puts]
    split
    · rename_i here
      obtain ⟨rfl,rfl⟩ := here
      apply List.pairwise_append.mpr
      refine ⟨timed.sorted me pe,List.pairwise_singleton _ _,?_⟩
      intro old before new member
      cases List.mem_singleton.mp member
      rw [round]
      exact timed.rounds me pe old before
    · rw [List.append_nil]
      exact timed.sorted a b
  · intro target slot used r
    by_cases reached : (s.pes (signaller target slot)).calls ≤ r
    · have bound := abstracts.sent_le used
      rw [calls] at bound
      have fewer : (t.puts cluster (signaller target slot) target).countP
          (fun put => put.dest = cluster.slotOffset slot ∧ put.round ≤ r) ≤ t.sent cluster target slot := by
        apply List.countP_mono_left
        intro put _ both
        simp only [decide_eq_true_eq] at both ⊢
        exact both.1
      omega
    · have before := timed.early target slot used r
      rw [puts,List.countP_append]
      split
      · rename_i here
        have after : ¬ put.round ≤ r := by
          rw [round,here.1]
          exact reached
        simpa [after] using before
      · exact before
  · intro a b peers zero other put' member
    rw [puts,updates a b peers] at member
    rw [calls]
    rw [List.drop_append] at member
    rcases List.mem_append.mp member with old | new
    · exact timed.late a b peers zero other put' old
    · have fresh := List.mem_of_mem_drop new
      split at fresh
      · rename_i here
        cases List.mem_singleton.mp fresh
        rw [round,here.1]
      · cases fresh

-- Other steps put nothing, and at most apply what was put.
theorem Timed.quiet (timed : Timed cluster s) (puts : ∀ i k, t.puts cluster i k = s.puts cluster i k)
    (updates : ∀ i k, ∃ more, t.updates i k = s.updates i k ++ more)
    (calls : ∀ p, (t.pes p).calls = (s.pes p).calls) : Timed cluster t := by
  refine ⟨?_,?_,?_,?_⟩
  · intro a b
    rw [puts,calls]
    exact timed.rounds a b
  · intro a b
    rw [puts]
    exact timed.sorted a b
  · intro pe slot used
    rw [puts]
    exact timed.early pe slot used
  · intro a b peers zero other put member
    obtain ⟨more,longer⟩ := updates a b
    rw [calls]
    apply timed.late a b peers zero other put
    rw [puts,longer,List.length_append,← List.drop_drop] at member
    exact List.mem_of_mem_drop member

-- A call starts a new round, in which nothing was put yet.
theorem Timed.call (timed : Timed cluster s) (settled : Settled cluster s me)
    (puts : ∀ i k, t.puts cluster i k = s.puts cluster i k) (updates : ∀ i k, t.updates i k = s.updates i k)
    (calls : ∀ p, (t.pes p).calls = (s.pes p).calls + if p = me then 1 else 0) : Timed cluster t := by
  refine ⟨?_,?_,?_,?_⟩
  · intro a b put member
    rw [puts] at member
    have before := timed.rounds a b put member
    rw [calls]
    omega
  · intro a b
    rw [puts]
    exact timed.sorted a b
  · intro pe slot used
    rw [puts]
    exact timed.early pe slot used
  · intro a b peers zero other put member
    rw [puts,updates] at member
    rw [calls]
    by_cases here : a = me
    · subst a
      have all := settled.2 b peers.2.1 peers.2.2 zero other
      have empty : (s.puts cluster me b).drop (s.updates me b).length = [] := by
        unfold System.puts
        rw [if_neg peers.2.2,all]
        exact List.drop_length
      rw [empty] at member
      cases member
    · rw [if_neg here]
      exact timed.late a b peers zero other put member

end OpenShmem
