import OpenShmem.Comm.Rounds
import OpenShmem.Library.Matching

namespace OpenShmem

-- An offset, a size and where the bytes come from: of what was put or is to be put.
abbrev Order := BitVec 64 × Nat × JobSource

def RemotePut.order (put : RemotePut) : Order := (put.dest,put.bytes.length,.buffer put.bytes)
def Update.order (update : Update) : Order := (update.dest,update.bytes.length,.buffer update.bytes)
def WorkJob.order (job : WorkJob) : Order := (job.dest,job.size.toNat,job.src)

-- A shmem_putmem_nbi leaves open when its bytes are read.
def Fulfils (issue : Issue) (order : Order) : Prop :=
  issue.dest = order.1 ∧ issue.size = order.2.1 ∧ (issue.src = .caller ∨ issue.src = order.2.2)

def System.issues (s : System) (i k : Nat) : List Issue := s.issued.filter fun issue => issue.origin = i ∧ issue.target = k
def System.owed (s : System) (i k round : Nat) : List Issue := (s.issues i k).filter (·.round < round)
def System.data (cluster : Cluster) (s : System) (i k : Nat) : List RemotePut :=
  (s.puts cluster i k).filter fun put => cluster.Apart put.dest put.bytes.length
def System.pending (s : System) (i k : Nat) : List WorkJob :=
  (s.pes i).jobs.filter fun job => job.originPe = BitVec.ofNat 32 i ∧ job.destPe = k

-- The puts of i for j from before i's r-th call each have a write of their own in j's heap
-- once j has returned from its r-th call.
def Completed (cluster : Cluster) (s : System) : Prop :=
  ∀ i < cluster.n, ∀ j < cluster.n, ∃ done : List Update, done.Sublist (s.updates i j) ∧
    Multiset.Rel (fun issue update => Fulfils issue update.order) (s.owed i j (s.pes j).returns : Multiset Issue)
      (done : Multiset Update)

-- What was issued was put or is pending, and what was issued in the rounds before was put
-- in them.
structure Matched (cluster : Cluster) (s : System) : Prop where
  issued : ∀ issue ∈ s.issued, issue.round ≤ (s.pes issue.origin).calls
  all : ∀ i < cluster.n, ∀ k, Multiset.Rel Fulfils (s.issues i k : Multiset Issue)
    (((s.data cluster i k).map RemotePut.order : Multiset Order) + ((s.pending i k).map WorkJob.order : Multiset Order))
  old : ∀ i < cluster.n, ∀ k, ∀ round ≤ (s.pes i).calls, Multiset.Rel Fulfils (s.owed i k round : Multiset Issue)
    (((s.data cluster i k).filter (·.round < round)).map RemotePut.order : Multiset Order)

variable {cluster : Cluster} {s t : System} {me pe slot i k : Nat}

theorem issues_snoc {issue : Issue} (issued : t.issued = s.issued ++ [issue]) : t.issues i k = s.issues i k ++
    if issue.origin = i ∧ issue.target = k then [issue] else [] := by
  unfold System.issues
  rw [issued,List.filter_append]
  congr 1
  split
  · rename_i here
    simp [here]
  · rename_i other
    simp [other]

-- An issue owes nothing to the rounds before its own.
theorem owed_snoc {issue : Issue} {round : Nat} (issued : t.issued = s.issued ++ [issue])
    (before : issue.origin = i → round ≤ issue.round) : t.owed i k round = s.owed i k round := by
  unfold System.owed
  rw [issues_snoc issued,List.filter_append]
  split
  · rename_i here
    have late : ¬ issue.round < round := Nat.not_lt.mpr (before here.1)
    simp [late]
  · simp

theorem data_before {put : RemotePut} {round : Nat} (data : t.data cluster i k = s.data cluster i k ++ if me = i ∧ pe = k then [put] else [])
    (before : me = i → round ≤ put.round) :
    (t.data cluster i k).filter (·.round < round) = (s.data cluster i k).filter (·.round < round) := by
  rw [data,List.filter_append]
  split
  · rename_i here
    have late : ¬ put.round < round := Nat.not_lt.mpr (before here.1)
    simp [late]
  · simp

theorem data_append {put : RemotePut} (puts : t.puts cluster i k = s.puts cluster i k ++ if me = i ∧ pe = k then [put] else [])
    (apart : cluster.Apart put.dest put.bytes.length) :
    t.data cluster i k = s.data cluster i k ++ if me = i ∧ pe = k then [put] else [] := by
  unfold System.data
  rw [puts,List.filter_append]
  congr 1
  split
  · simp [apart]
  · rfl

-- What the barrier writes is no data.
theorem data_slot {put : RemotePut} (puts : t.puts cluster i k = s.puts cluster i k ++ if me = i ∧ pe = k then [put] else [])
    (dest : put.dest = cluster.slotOffset slot) (size : put.bytes.length = 4) (inside : 0 < slot ∧ slot < cluster.n) :
    t.data cluster i k = s.data cluster i k := by
  have within : ¬ cluster.Apart put.dest put.bytes.length := by
    have place := slotOffset_toNat inside.2
    unfold Cluster.Apart
    rw [dest,size,place]
    omega
  unfold System.data
  rw [puts,List.filter_append]
  split
  · simp [within]
  · simp

theorem Matched.quiet (matched : Matched cluster s) (issued : t.issued = s.issued)
    (data : ∀ i k, t.data cluster i k = s.data cluster i k) (calls : ∀ p, (t.pes p).calls = (s.pes p).calls)
    (pending : ∀ i < cluster.n, ∀ k, t.pending i k = s.pending i k) : Matched cluster t := by
  have issues : ∀ i k, t.issues i k = s.issues i k := by
    intro a b
    unfold System.issues
    rw [issued]
  refine ⟨?_,?_,?_⟩
  · intro issue member
    rw [issued] at member
    rw [calls]
    exact matched.issued issue member
  · intro a below b
    rw [issues,data,pending a below b]
    exact matched.all a below b
  · intro a below b round bound
    unfold System.owed
    rw [issues,data]
    rw [calls] at bound
    exact matched.old a below b round bound

-- A PE that calls has nothing pending: all that it issued was put in the rounds so far.
theorem Matched.call (matched : Matched cluster s) (timed : Timed cluster s) (settled : Settled cluster s me)
    (issued : t.issued = s.issued) (data : ∀ i k, t.data cluster i k = s.data cluster i k)
    (calls : ∀ p, (t.pes p).calls = (s.pes p).calls + if p = me then 1 else 0)
    (pending : ∀ i k, t.pending i k = s.pending i k) : Matched cluster t := by
  have issues : ∀ i k, t.issues i k = s.issues i k := by
    intro a b
    unfold System.issues
    rw [issued]
  refine ⟨?_,?_,?_⟩
  · intro issue member
    rw [issued] at member
    have before := matched.issued issue member
    rw [calls]
    omega
  · intro a below b
    rw [issues,data,pending]
    exact matched.all a below b
  · intro a below b round bound
    unfold System.owed
    rw [issues,data]
    rw [calls] at bound
    by_cases here : a = me ∧ (s.pes a).calls < round
    · obtain ⟨rfl,passed⟩ := here
      have idle : s.pending a b = [] := by
        unfold System.pending
        apply List.filter_eq_nil_iff.mpr
        intro job member own
        simp only [decide_eq_true_eq] at own
        exact settled.1 job member own.1
      have everything : (s.issues a b).filter (·.round < round) = s.issues a b := by
        apply List.filter_eq_self.mpr
        intro issue member
        obtain ⟨there,place⟩ := List.mem_filter.mp member
        have before := matched.issued issue there
        simp only [decide_eq_true_eq] at place ⊢
        rw [place.1] at before
        omega
      have whole : (s.data cluster a b).filter (·.round < round) = s.data cluster a b := by
        apply List.filter_eq_self.mpr
        intro put member
        have before := timed.rounds a b put (List.mem_filter.mp member).1
        simp only [decide_eq_true_eq]
        omega
      have all := matched.all a below b
      rw [idle] at all
      rw [everything,whole]
      simpa using all
    · apply matched.old a below b round
      split at bound
      · rename_i same
        have short : ¬ (s.pes a).calls < round := fun passed => here ⟨same,passed⟩
        omega
      · exact bound

theorem issued_snoc {issue : Issue} (matched : Matched cluster s) (issued : t.issued = s.issued ++ [issue])
    (round : issue.round = (s.pes issue.origin).calls) (calls : ∀ p, (t.pes p).calls = (s.pes p).calls) :
    ∀ issue ∈ t.issued, issue.round ≤ (t.pes issue.origin).calls := by
  intro other member
  rw [issued] at member
  rw [calls]
  rcases List.mem_append.mp member with old | new
  · exact matched.issued other old
  · cases List.mem_singleton.mp new
    exact Nat.le_of_eq round

-- A shmem_putmem is put when it is issued.
theorem Matched.put {issue : Issue} {put : RemotePut} (matched : Matched cluster s)
    (issued : t.issued = s.issued ++ [issue]) (fulfils : Fulfils issue put.order)
    (round : issue.round = (s.pes issue.origin).calls) (now : put.round = issue.round)
    (data : ∀ i k, t.data cluster i k = s.data cluster i k ++ if issue.origin = i ∧ issue.target = k then [put] else [])
    (calls : ∀ p, (t.pes p).calls = (s.pes p).calls) (pending : ∀ i k, t.pending i k = s.pending i k) :
    Matched cluster t := by
  refine ⟨issued_snoc matched issued round calls,?_,?_⟩
  · intro a below b
    have before := matched.all a below b
    rw [issues_snoc issued,data,pending]
    split
    · rw [List.map_append,← Multiset.coe_add,← Multiset.coe_add]
      exact Matching.insert before fulfils
    · simpa using before
  · intro a below b r bound
    rw [calls] at bound
    have current : issue.origin = a → r ≤ issue.round := by
      intro same
      rw [round,same]
      exact bound
    rw [owed_snoc issued current,data_before (data a b) fun same => now ▸ current same]
    exact matched.old a below b r bound

-- A shmem_putmem_nbi waits in the work queue.
theorem Matched.putNbi {issue : Issue} (matched : Matched cluster s) (issued : t.issued = s.issued ++ [issue])
    (fulfils : Fulfils issue job.order) (round : issue.round = (s.pes issue.origin).calls)
    (data : ∀ i k, t.data cluster i k = s.data cluster i k) (calls : ∀ p, (t.pes p).calls = (s.pes p).calls)
    (pending : ∀ i < cluster.n, ∀ k, t.pending i k = s.pending i k ++
      if issue.origin = i ∧ issue.target = k then [job] else []) : Matched cluster t := by
  refine ⟨issued_snoc matched issued round calls,?_,?_⟩
  · intro a below b
    have before := matched.all a below b
    rw [issues_snoc issued,data,pending a below b]
    split
    · rw [List.map_append,← Multiset.coe_add,← Multiset.coe_add,← add_assoc]
      exact Matching.snoc before fulfils
    · simpa using before
  · intro a below b r bound
    rw [calls] at bound
    have current : issue.origin = a → r ≤ issue.round := by
      intro same
      rw [round,same]
      exact bound
    rw [owed_snoc issued current,data]
    exact matched.old a below b r bound

-- The worker makes a put of a job, with the bytes that it finds.
theorem Matched.work {put : RemotePut} (matched : Matched cluster s) (issued : t.issued = s.issued)
    (same : put.order.1 = job.order.1 ∧ put.order.2.1 = job.order.2.1) (caller : job.src = .caller)
    (now : put.round = (s.pes me).calls)
    (data : ∀ i k, t.data cluster i k = s.data cluster i k ++ if me = i ∧ pe = k then [put] else [])
    (calls : ∀ p, (t.pes p).calls = (s.pes p).calls)
    (pending : ∀ i < cluster.n, ∀ k, s.pending i k = (if me = i ∧ pe = k then [job] else []) ++ t.pending i k) :
    Matched cluster t := by
  have issues : ∀ i k, t.issues i k = s.issues i k := by
    intro a b
    unfold System.issues
    rw [issued]
  refine ⟨?_,?_,?_⟩
  · intro issue member
    rw [issued] at member
    rw [calls]
    exact matched.issued issue member
  · intro a below b
    have before := matched.all a below b
    rw [pending a below b] at before
    rw [issues,data]
    split
    · rename_i here
      rw [if_pos here,List.map_append,← Multiset.coe_add] at before
      rw [List.map_append,← Multiset.coe_add]
      apply Matching.replace _ before
      intro issue ⟨dest,size,src⟩
      refine ⟨dest.trans same.1.symm,size.trans same.2.symm,Or.inl ?_⟩
      rcases src with open_ | equal
      · exact open_
      · exact equal.trans caller
    · rename_i other
      rw [if_neg other] at before
      simpa using before
  · intro a below b r bound
    unfold System.owed
    rw [calls] at bound
    rw [issues,data_before (data a b)]
    · exact matched.old a below b r bound
    · intro same
      rw [now,same]
      exact bound

theorem commPut_quiet (wired : cluster.WiredUp) (ran : s.commPut cluster me me dest src pe prior = some t) : t.issued = s.issued ∧
    ∀ i k, Peers cluster.toJob i k → t.updates i k = s.updates i k := by
  obtain ⟨_,⟨near,rfl⟩ | ⟨_,rfl⟩⟩ := commPut_cases wired ran
  · refine ⟨rfl,?_⟩
    intro a b peers
    rw [updates_write,if_neg,List.append_nil]
    intro ⟨first,second⟩
    subst first second
    exact peers.2.2 near
  · exact ⟨rfl,fun _ _ _ => rfl⟩

theorem pending_congr (jobs : ∀ p, (t.pes p).jobs = (s.pes p).jobs) (i k : Nat) : t.pending i k = s.pending i k := by
  unfold System.pending
  rw [jobs]

theorem pending_setPe {entry : Pe} (more : List WorkJob) (jobs : entry.jobs = (s.pes me).jobs ++ more)
    (fetched : ∀ job ∈ more, job.originPe ≠ BitVec.ofNat 32 me) (i k : Nat) :
    (s.setPe me entry).pending i k = s.pending i k := by
  unfold System.pending
  by_cases here : i = me
  · subst i
    have none : more.filter (fun job => job.originPe = BitVec.ofNat 32 me ∧ job.destPe = k) = [] := by
      apply List.filter_eq_nil_iff.mpr
      intro job member own
      simp only [decide_eq_true_eq] at own
      exact fetched job member own.1
    simp only [pes_setPe,Function.update_self]
    rw [jobs,List.filter_append,none,List.append_nil]
  · simp [here]

structure Completing (cluster : Cluster) (s : System) : Prop where
  signalled : Signalled cluster s
  timed : Timed cluster s
  matched : Matched cluster s

-- Steps that put nothing, call nothing and leave a PE's own jobs alone.
theorem Completing.quiet (completing : Completing cluster s) (signalled : Signalled cluster t)
    (issued : t.issued = s.issued) (puts : ∀ i k, t.puts cluster i k = s.puts cluster i k)
    (updates : ∀ i k, ∃ more, t.updates i k = s.updates i k ++ more)
    (calls : ∀ p, (t.pes p).calls = (s.pes p).calls)
    (pending : ∀ i < cluster.n, ∀ k, t.pending i k = s.pending i k) : Completing cluster t := by
  refine ⟨signalled,completing.timed.quiet puts updates calls,?_⟩
  apply completing.matched.quiet issued _ calls pending
  intro a b
  unfold System.data
  rw [puts]

-- What the barrier writes itself.
theorem Completing.barrier {put : RemotePut} (completing : Completing cluster s) (signalled : Signalled cluster t)
    (issued : t.issued = s.issued)
    (puts : ∀ i k, t.puts cluster i k = s.puts cluster i k ++ if me = i ∧ pe = k then [put] else [])
    (made : put.dest = cluster.slotOffset slot ∧ put.bytes.length = 4 ∧ put.round = (s.pes me).calls)
    (inside : 0 < slot ∧ slot < cluster.n)
    (updates : ∀ i k, Peers cluster.toJob i k → t.updates i k = s.updates i k)
    (thread : ∀ p, (t.pes p).calls = (s.pes p).calls ∧ (t.pes p).jobs = (s.pes p).jobs) : Completing cluster t := by
  obtain ⟨b,abstracts,_⟩ := signalled.barrier
  refine ⟨signalled,completing.timed.put abstracts puts made.2.2 (fun p => (thread p).1) updates,?_⟩
  apply completing.matched.quiet issued
  · intro a b
    exact data_slot (puts a b) made.1 made.2.1 inside
  · intro p
    exact (thread p).1
  · intro a _ b
    exact pending_congr (fun p => (thread p).2) a b

theorem call_outside (moved : commBarrierAll n me slots pc = some (next,.call)) : pc = .outside := by
  cases pc with
  | outside => rfl
  | collect i =>
    simp only [commBarrierAll] at moved
    split at moved <;> cases moved
  | await =>
    simp only [commBarrierAll] at moved
    split at moved <;> cases moved
  | _ => cases moved

theorem Completing.sync (completing : Completing cluster s) (after : Signalled cluster t) (inside : me < cluster.n)
    (drained : (s.pes me).pc = .outside → Settled cluster s me)
    (moved : commBarrierAll cluster.n me (s.slots cluster me) (s.pes me).pc = some (next,effect))
    (ran : (s.setPe me {s.pes me with pc := next}).perform cluster me prior effect = some t) : Completing cluster t := by
  obtain ⟨b,abstracts,balanced,_⟩ := completing.signalled.barrier
  have signals := sync_signals abstracts balanced inside moved
  have thread := perform_thread ran
  have before : ∀ p, ((s.setPe me {s.pes me with pc := next}).pes p).calls = (s.pes p).calls ∧
      ((s.setPe me {s.pes me with pc := next}).pes p).jobs = (s.pes p).jobs := by
    intro p
    by_cases here : p = me
    · subst p
      simp [Pe.jobs]
    · simp [here]
  have jobs : ∀ p, (t.pes p).jobs = (s.pes p).jobs := fun p => (thread p).2.2.2.trans (before p).2
  have calls : ∀ p, (t.pes p).calls = (s.pes p).calls + if p = me then effect.calls else 0 := by
    intro p
    rw [(thread p).2.1,(before p).1]
  have idle : effect.calls = 0 → ∀ p, (t.pes p).calls = (s.pes p).calls ∧ (t.pes p).jobs = (s.pes p).jobs := by
    intro none p
    rw [calls,none]
    simp [jobs]
  have mine : ((s.setPe me {s.pes me with pc := next}).pes me).calls = (s.pes me).calls := (before me).1
  cases effect with
  | nothing =>
    have still := idle rfl
    cases ran
    exact completing.quiet after rfl (fun _ _ => rfl) (fun _ _ => ⟨[],(List.append_nil _).symm⟩) (fun p => (still p).1)
      fun a _ b => pending_congr jobs a b
  | ret =>
    have still := idle rfl
    cases ran
    exact completing.quiet after rfl (fun _ _ => rfl) (fun _ _ => ⟨[],(List.append_nil _).symm⟩) (fun p => (still p).1)
      fun a _ b => pending_congr jobs a b
  | call =>
    have settled := drained (call_outside moved)
    cases ran
    refine ⟨after,completing.timed.call settled (fun _ _ => rfl) (fun _ _ => rfl) calls,?_⟩
    exact completing.matched.call completing.timed settled rfl (fun _ _ => rfl) calls (pending_congr jobs)
  | zero slot =>
    have still := idle rfl
    have used := signals.zero slot rfl
    cases ran
    apply completing.barrier after rfl (fun _ _ => puts_write rfl _ _) ⟨rfl,intBytes_length 0,mine⟩ ⟨used.1,used.2.1⟩ _ still
    intro a b peers
    rw [updates_write,if_neg,List.append_nil]
    · rfl
    · intro both
      exact peers.ne (both.1.symm.trans both.2)
  | signal pe slot =>
    have still := idle rfl
    obtain ⟨used,_⟩ := signals.signal pe slot rfl
    obtain ⟨issued,updates⟩ := commPut_quiet after.wired ran
    have puts : ∀ i k, t.puts cluster i k = s.puts cluster i k ++ if me = i ∧ pe = k then
        [⟨me,pe,cluster.slotOffset slot,(intBytes 1).bytes,((s.setPe me {s.pes me with pc := next}).pes me).calls⟩]
        else [] := fun _ _ => puts_commPut after.wired ran
    exact completing.barrier after issued puts ⟨rfl,intBytes_length 1,mine⟩ ⟨used.1,used.2.1⟩ updates still

theorem setPe_calls {entry : Pe} (calls : entry.calls = (s.pes me).calls) (p : Nat) :
    ((s.setPe me entry).pes p).calls = (s.pes p).calls := by
  by_cases here : p = me
  · subst p
    simp [calls]
  · simp [here]

theorem Completing.execute (completing : Completing cluster s) (after : Signalled cluster t) (inside : me < cluster.n)
    (busy : (s.pes me).busy = some job)
    (ran : (s.setPe me {s.pes me with busy := none}).execute cluster me job contents prior = some t) :
    Completing cluster t := by
  have jobs := jobs_busy busy
  have member : job ∈ (s.pes me).jobs := by
    rw [jobs]
    exact List.mem_cons_self
  have thread : ∀ p, ((s.setPe me {s.pes me with busy := none}).pes p).calls = (s.pes p).calls := setPe_calls rfl
  rcases execute_cases completing.signalled.toPiped inside busy ran with ⟨own,src,size,put⟩ | ⟨i,bytes,peers,made,rfl⟩
  · obtain ⟨issued,updates⟩ := commPut_quiet after.wired put
    have later := commPut_thread put
    have calls : ∀ p, (t.pes p).calls = (s.pes p).calls := fun p => (later p).2.1.trans (thread p)
    have puts : ∀ i k, t.puts cluster i k = s.puts cluster i k ++ if me = i ∧ job.destPe = k then
        [⟨me,job.destPe,job.dest,src.bytes,((s.setPe me {s.pes me with busy := none}).pes me).calls⟩] else [] :=
      fun _ _ => puts_commPut after.wired put
    have now : ((s.setPe me {s.pes me with busy := none}).pes me).calls = (s.pes me).calls := thread me
    have apart : cluster.Apart job.dest src.bytes.length := by
      rw [size]
      exact completing.signalled.calm me inside job member own.2.1
    obtain ⟨b,abstracts,_⟩ := after.barrier
    refine ⟨after,completing.timed.put abstracts puts now calls updates,?_⟩
    have data := fun i k => data_append (puts i k) apart
    apply completing.matched.work issued _ own.2.2.1 now data calls
    rotate_left
    · exact ⟨rfl,size⟩
    intro a below b
    rw [pending_congr (fun p => (later p).2.2.2)]
    unfold System.pending
    by_cases here : me = a
    · subst a
      simp only [pes_setPe,Function.update_self]
      rw [jobs,List.filter_cons]
      by_cases there : job.destPe = b
      · simp [own.2.1,there]
      · simp [there]
    · simp [here,Ne.symm here]
  · apply completing.quiet after rfl (fun _ _ => puts_apply peers _ _)
    · intro a b
      rw [updates_write]
      exact ⟨_,rfl⟩
    · intro p
      exact thread p
    · intro a below b
      unfold System.pending
      by_cases here : a = me
      · subst a
        have apart : job.originPe ≠ BitVec.ofNat 32 me := by
          rw [made]
          intro same
          exact peers.2.2 (congrArg cluster.node (peNumber_inj peers.1 peers.2.1 same))
        rw [jobs]
        simp [System.write,apart]
      · simp [System.write,here]

theorem Completing.put (completing : Completing cluster s) (after : Signalled cluster t)
    (beside : cluster.Apart dest src.bytes.length)
    (ran : (s.issue ⟨me,pe,dest,src.bytes.length,.buffer src.bytes,(s.pes me).calls⟩).commPut cluster me me dest src pe
      prior = some t) : Completing cluster t := by
  obtain ⟨b,abstracts,_⟩ := after.barrier
  obtain ⟨issued,updates⟩ := commPut_quiet after.wired ran
  have thread := commPut_thread ran
  have puts : ∀ i k, t.puts cluster i k = s.puts cluster i k ++
      if me = i ∧ pe = k then [⟨me,pe,dest,src.bytes,(s.pes me).calls⟩] else [] :=
    fun _ _ => puts_commPut (s := s.issue _) after.wired ran
  refine ⟨after,completing.timed.put abstracts puts rfl (fun p => (thread p).2.1) updates,?_⟩
  have fulfils : Fulfils ⟨me,pe,dest,src.bytes.length,.buffer src.bytes,(s.pes me).calls⟩
      (RemotePut.order ⟨me,pe,dest,src.bytes,(s.pes me).calls⟩) := ⟨rfl,rfl,Or.inr rfl⟩
  apply completing.matched.put issued fulfils rfl rfl
  · intro a b
    exact data_append (puts a b) beside
  · intro p
    exact (thread p).2.1
  · intro a b
    exact pending_congr (fun p => (thread p).2.2.2) a b

theorem Completing.putNbi (completing : Completing cluster s)
    (after : Signalled cluster ((s.issue ⟨me,pe,dest,size.toNat,.caller,(s.pes me).calls⟩).setPe me
      {s.pes me with workQueue := (s.pes me).workQueue ++ [⟨handlerPut,pe,BitVec.ofNat 32 me,dest,.caller,size⟩]})) :
    Completing cluster ((s.issue ⟨me,pe,dest,size.toNat,.caller,(s.pes me).calls⟩).setPe me
      {s.pes me with workQueue := (s.pes me).workQueue ++ [⟨handlerPut,pe,BitVec.ofNat 32 me,dest,.caller,size⟩]}) := by
  have calls : ∀ p, (((s.issue ⟨me,pe,dest,size.toNat,.caller,(s.pes me).calls⟩).setPe me {s.pes me with
      workQueue := (s.pes me).workQueue ++ [⟨handlerPut,pe,BitVec.ofNat 32 me,dest,.caller,size⟩]}).pes p).calls =
      (s.pes p).calls := by
    intro p
    by_cases here : p = me
    · subst p
      simp
    · simp [here,System.issue]
  refine ⟨after,completing.timed.quiet (fun _ _ => rfl) (fun _ _ => ⟨[],(List.append_nil _).symm⟩) calls,?_⟩
  have fulfils : Fulfils ⟨me,pe,dest,size.toNat,.caller,(s.pes me).calls⟩
      (WorkJob.order ⟨handlerPut,pe,BitVec.ofNat 32 me,dest,.caller,size⟩) := ⟨rfl,rfl,Or.inl rfl⟩
  apply completing.matched.putNbi rfl fulfils
  · rfl
  · intro a b
    rfl
  · exact calls
  · intro a below b
    unfold System.pending
    by_cases here : me = a
    · subst a
      simp only [pes_setPe,Function.update_self,Pe.jobs]
      rw [← List.append_assoc,List.filter_append]
      by_cases there : pe = b
      · simp [there]
      · simp [there]
    · simp [here,Ne.symm here,System.issue]

theorem step_completing (completing : Completing cluster s) (reliable : Reliable cluster s event)
    (found : PayloadFound event) (beside : Beside cluster event) (drained : Drained cluster s event)
    (moved : s.step cluster event = some t) : Completing cluster t := by
  have after := step_signalled completing.signalled reliable found beside moved
  have piped := completing.signalled.toPiped
  have none : ∀ i k, ∃ more, s.updates i k = s.updates i k ++ more := fun _ _ => ⟨[],(List.append_nil _).symm⟩
  unfold System.step at moved
  split at moved
  · rename_i inside
    cases event with
    | put me dest src pe prior =>
      simp only [System.move] at moved
      split at moved
      · exact completing.put after beside moved
      · cases moved
    | putNbi me dest size pe =>
      simp only [System.move] at moved
      split at moved
      · cases moved
        exact completing.putNbi after
      · cases moved
    | sync me prior =>
      obtain ⟨⟨pc,effect⟩,advanced,performed⟩ := Option.bind_eq_some_iff.mp moved
      exact completing.sync after inside drained advanced performed
    | dequeue me =>
      simp only [System.move] at moved
      split at moved
      · rename_i job rest idle queued
        cases moved
        apply completing.quiet after rfl (fun _ _ => rfl) none (setPe_calls rfl)
        intro a _ b
        apply pending_setPe []
        · simp [Pe.jobs,idle,queued]
        · simp
      · cases moved
    | execute me contents prior =>
      obtain ⟨job,busy,ran⟩ := Option.bind_eq_some_iff.mp moved
      exact completing.execute after inside busy ran
    | send me result =>
      obtain ⟨pe,packet,rest,stamp,indices,front,peers,rfl⟩ := send_cases piped inside reliable moved
      apply completing.quiet after rfl (fun _ _ => rfl) none (setPe_calls rfl)
      intro a _ b
      apply pending_setPe []
      · exact (List.append_nil _).symm
      · simp
    | receive me index reads =>
      obtain ⟨peer,buffer,peers,cases⟩ := receive_cases inside reliable found moved
      obtain ⟨packets,streams,made,_⟩ := completing.signalled.flow peer me peers
      rcases cases packets streams with rfl | ⟨packet,rest,rfl,rfl⟩
      · apply completing.quiet after rfl (fun _ _ => rfl) none (setPe_calls rfl)
        intro a _ b
        apply pending_setPe []
        · exact (List.append_nil _).symm
        · simp
      · apply completing.quiet after rfl (fun _ _ => rfl) none (setPe_calls rfl)
        intro a _ b
        apply pending_setPe [packet.job me] (List.append_assoc _ _ _).symm
        intro job member own
        cases List.mem_singleton.mp member
        have origin := (made packet List.mem_cons_self).2
        have same := peNumber_inj peers.1 peers.2.1 (origin.symm.trans own)
        exact peers.2.2 (same ▸ rfl)
  · cases moved

theorem start_completing (wired : cluster.WiredUp) : Completing cluster System.start := by
  have empty : ∀ i k, System.start.puts cluster i k = [] := by
    intro i k
    unfold System.puts
    split <;> rfl
  have slots : ∀ pe slot, System.start.slots cluster pe slot = 0 := by
    intro pe slot
    rfl
  refine ⟨⟨start_piped wired,?_,?_,Barrier.start,?_,start_balanced _,start_tagged _⟩,?_,?_⟩
  · intro p below job member
    cases member
  · intro i k peers put member
    cases member
  · refine ⟨fun _ => rfl,fun _ => rfl,fun _ => rfl,?_,?_,?_⟩
    · intro pe slot used
      rw [slots]
      rfl
    · intro pe slot used
      unfold System.sent
      rw [empty]
      rfl
    · intro pe slot used
      unfold System.sent Barrier.put
      rw [empty]
      split <;> rfl
  · refine ⟨?_,?_,?_,?_⟩
    · intro i k put member
      rw [empty] at member
      cases member
    · intro i k
      rw [empty]
      exact List.Pairwise.nil
    · intro pe slot used r
      rw [empty]
      exact Nat.zero_le r
    · intro i k peers zero other put member
      rw [empty] at member
      simp at member
  · have none : ∀ i k, System.start.data cluster i k = [] := by
      intro i k
      unfold System.data
      rw [empty]
      rfl
    refine ⟨?_,?_,?_⟩
    · intro issue member
      cases member
    · intro i below k
      rw [none]
      exact Multiset.Rel.zero
    · intro i below k round bound
      rw [none]
      exact Multiset.Rel.zero

-- The calls of i for k that were applied, as they were made.
theorem Flow.applied (flow : Flow i k s) : ((s.calls i k).take (s.updates i k).length).map RemotePut.written =
    (s.updates i k).map Update.written := by
  obtain ⟨packets,_,_,ordered⟩ := flow
  rw [List.map_take,ordered]
  apply List.take_left'
  exact List.length_map _

-- PE k has taken as many of the signals on its slot as it has returned.
theorem returns_le_got (abstracts : Abstracts cluster s b) (balanced : Balanced cluster.n b)
    (used : Used cluster.n pe slot) : (s.pes pe).returns ≤ s.got cluster pe slot := by
  have flights := abstracts.flights pe slot used
  have sent := abstracts.sent pe slot used
  rw [← abstracts.returns]
  unfold Barrier.put at sent
  split at sent
  · rename_i zero
    subst pe
    have arrivals := balanced.arrivals slot used.1 used.2.1
    have returned := balanced.returns_root used.inside slot
    omega
  · rename_i other
    have same : pe = slot := used.2.2.resolve_left other
    subst slot
    have releases := balanced.releases pe used.1 used.2.1
    have returned := balanced.returns_peer used.inside
    omega

-- The signal of a round comes behind the puts of the rounds before.
theorem pushed {round : Nat} (completing : Completing cluster s) (peers : Peers cluster.toJob i k) (used : Used cluster.n k slot)
    (channel : signaller k slot = i) (taken : round ≤ s.got cluster k slot) :
    ∀ put ∈ (s.puts cluster i k).drop (s.updates i k).length, round ≤ put.round := by
  intro put member
  by_contra early
  have applied := (completing.signalled.flow i k peers).applied
  have puts : s.puts cluster i k = s.calls i k := if_neg peers.2.2
  have sorted := completing.timed.sorted i k
  rw [← List.take_append_drop (s.updates i k).length (s.puts cluster i k)] at sorted
  have behind := (List.pairwise_append.mp sorted).2.2
  have signals : s.got cluster k slot =
      ((s.puts cluster i k).take (s.updates i k).length).countP (·.dest = cluster.slotOffset slot) := by
    have updates := List.countP_map (p := fun written : BitVec 64 × List UInt8 =>
      decide (written.1 = cluster.slotOffset slot)) (f := Update.written) (l := s.updates i k)
    have calls := List.countP_map (p := fun written : BitVec 64 × List UInt8 =>
      decide (written.1 = cluster.slotOffset slot)) (f := RemotePut.written)
      (l := (s.calls i k).take (s.updates i k).length)
    unfold System.got
    rw [channel,puts]
    rw [applied] at calls
    exact updates.symm.trans calls
  have bounded : ((s.puts cluster i k).take (s.updates i k).length).countP (·.dest = cluster.slotOffset slot) ≤
      (s.puts cluster i k).countP (fun put => put.dest = cluster.slotOffset slot ∧ put.round ≤ round - 1) := by
    have within := (List.take_sublist (s.updates i k).length (s.puts cluster i k)).countP_le
      (p := fun put => decide (put.dest = cluster.slotOffset slot ∧ put.round ≤ round - 1))
    apply Nat.le_trans _ within
    apply List.countP_mono_left
    intro signal before dest
    have order := behind signal before put member
    simp only [decide_eq_true_eq] at dest ⊢
    exact ⟨dest,by omega⟩
  have few := completing.timed.early k slot used (round - 1)
  rw [channel] at few
  omega

theorem waiting_rounds (completing : Completing cluster s) (peers : Peers cluster.toJob i k) :
    ∀ put ∈ (s.puts cluster i k).drop (s.updates i k).length, (s.pes k).returns ≤ put.round := by
  obtain ⟨b,abstracts,balanced,_⟩ := completing.signalled.barrier
  have apart : i ≠ k := fun same => peers.2.2 (same ▸ rfl)
  by_cases target : k = 0
  · subst k
    have used : Used cluster.n 0 i := ⟨Nat.pos_of_ne_zero apart,peers.1,Or.inl rfl⟩
    exact pushed completing peers used rfl (returns_le_got abstracts balanced used)
  · by_cases origin : i = 0
    · subst i
      have used : Used cluster.n k k := ⟨Nat.pos_of_ne_zero target,peers.2.1,Or.inr rfl⟩
      exact pushed completing peers used (Nat.sub_self k) (returns_le_got abstracts balanced used)
    · intro put member
      have current := completing.timed.late i k peers origin target put member
      have bound := balanced.returns_le peers.2.1 peers.1
      rw [abstracts.returns,abstracts.calls] at bound
      rw [current]
      exact bound

theorem owed_applied (completing : Completing cluster s) (insideI : i < cluster.n) (insideK : k < cluster.n) :
    (((s.data cluster i k).filter (·.round < (s.pes k).returns)).map RemotePut.order).Sublist
      ((s.updates i k).map Update.order) := by
  by_cases near : cluster.node i = cluster.node k
  · have puts : (s.updates i k).map Update.order = (s.puts cluster i k).map RemotePut.order := by
      unfold System.puts
      rw [if_pos near,List.map_map]
      rfl
    rw [puts]
    apply List.Sublist.map
    exact List.filter_sublist.trans List.filter_sublist
  · have peers : Peers cluster.toJob i k := ⟨insideI,insideK,near⟩
    have puts : s.puts cluster i k = s.calls i k := if_neg near
    have applied : (s.updates i k).map Update.order =
        ((s.puts cluster i k).take (s.updates i k).length).map RemotePut.order := by
      have same := congrArg (List.map fun written : BitVec 64 × List UInt8 =>
        ((written.1,written.2.length,JobSource.buffer written.2) : Order)) (completing.signalled.flow i k peers).applied
      rw [List.map_map,List.map_map] at same
      rw [puts]
      exact same.symm
    have waiting : ((s.puts cluster i k).drop (s.updates i k).length).filter (fun put =>
        decide (put.round < (s.pes k).returns) && decide (cluster.Apart put.dest put.bytes.length)) = [] := by
      apply List.filter_eq_nil_iff.mpr
      intro put member both
      have late := waiting_rounds completing peers put member
      simp only [Bool.and_eq_true,decide_eq_true_eq] at both
      omega
    rw [applied]
    apply List.Sublist.map
    unfold System.data
    rw [List.filter_filter,← List.take_append_drop (s.updates i k).length (s.puts cluster i k),List.filter_append,
      waiting,List.append_nil,List.take_append_drop]
    exact List.filter_sublist

theorem Completing.completed (completing : Completing cluster s) : Completed cluster s := by
  intro i insideI j insideJ
  obtain ⟨b,abstracts,balanced,_⟩ := completing.signalled.barrier
  have bound := balanced.returns_le insideJ insideI
  rw [abstracts.returns,abstracts.calls] at bound
  have matched := completing.matched.old i insideI j _ bound
  obtain ⟨done,among,same⟩ := List.sublist_map_iff.mp (owed_applied completing insideI insideJ)
  refine ⟨done,among,?_⟩
  rw [same,← Multiset.map_coe] at matched
  exact Multiset.rel_map_right.mp matched

-- Once shmem_sync_all returns, what was put before it is in the heap, if every PE that
-- calls it has first got through what the barrier does not wait for.
theorem sync_all_completes (cluster : Cluster) (wired : cluster.WiredUp) (events : List Event)
    (meets : (systems cluster).Meets (fun s event => (Reliable cluster s event ∧ PayloadFound event ∧
      Beside cluster event) ∧ Drained cluster s event) System.start events)
    (ran : (systems cluster).run System.start events = some s) : Completed cluster s := by
  have kept : ∀ s event t, Completing cluster s → (Reliable cluster s event ∧ PayloadFound event ∧
      Beside cluster event) ∧ Drained cluster s event → (systems cluster).step s event = some t → Completing cluster t := by
    intro s event t completing ⟨⟨reliable,found,beside⟩,drained⟩ moved
    exact step_completing completing reliable found beside drained moved
  exact (Guarded.Machine.run_keeps kept (start_completing wired) meets ran).completed

-- PE 1 puts into PE 0's heap, and both get through the barrier.
theorem sync_all_completes_two : ∃ s, (systems pairCluster).run System.start
    [.put 1 64 ⟨[7,8,9],by decide⟩ 0 5,.sync 1 0,.sync 1 6,.sync 0 0,.send 1 (some 32),.send 1 (some 33),
      .receive 0 0 ⟨some 29,some 3,[1,1,1]⟩,.receive 0 0 ⟨some 29,some 4,[1,1,1,1]⟩,.dequeue 0,.execute 0 [] 0,
      .dequeue 0,.execute 0 [] 0,.sync 0 0,.sync 0 0,.sync 0 7,.sync 0 0] = some s ∧ Completed pairCluster s := by
  let events : List Event := [.put 1 64 ⟨[7,8,9],by decide⟩ 0 5,.sync 1 0,.sync 1 6,.sync 0 0,.send 1 (some 32),
    .send 1 (some 33),.receive 0 0 ⟨some 29,some 3,[1,1,1]⟩,.receive 0 0 ⟨some 29,some 4,[1,1,1,1]⟩,.dequeue 0,
    .execute 0 [] 0,.dequeue 0,.execute 0 [] 0,.sync 0 0,.sync 0 0,.sync 0 7,.sync 0 0]
  obtain ⟨s,ran⟩ := Option.isSome_iff_exists.mp
    (by decide +kernel : ((systems pairCluster).run System.start events).isSome)
  exact ⟨s,ran,sync_all_completes pairCluster pair_wired events (by decide +kernel) ran⟩

-- One PE alone: its worker has not run yet when shmem_sync_all returns.
theorem nbi_put_left :
    ¬ ∀ (cluster : Cluster) (events : List Event) (s : System), cluster.WiredUp →
      (systems cluster).Meets (fun s event => Reliable cluster s event ∧ PayloadFound event ∧ Beside cluster event)
        System.start events →
      (systems cluster).run System.start events = some s → Completed cluster s := by
  intro claim
  let events : List Event := [.putNbi 0 64 3 0,.sync 0 0,.sync 0 0]
  have left : ((systems loneCluster).run System.start events).map
      (fun s => ((s.owed 0 0 (s.pes 0).returns).length,s.updates 0 0)) = some (1,[]) := by decide +kernel
  obtain ⟨s,ran,lists⟩ := Option.map_eq_some_iff.mp left
  obtain ⟨owed,updates⟩ := Prod.mk.inj lists
  obtain ⟨done,among,matched⟩ := claim loneCluster events s lone_wired (by decide +kernel) ran 0 (by decide) 0 (by decide)
  have equal := Multiset.card_eq_card_of_rel matched
  rw [updates] at among
  rw [List.sublist_nil.mp among] at equal
  simp only [Multiset.coe_card,List.length_nil] at equal
  omega

end OpenShmem
