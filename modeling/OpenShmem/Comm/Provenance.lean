import OpenShmem.Comm.Liveness

namespace OpenShmem
open ByteMemory (memcpy)

-- A put of an application that asked for this write.
def Issue.Answers (issue : Issue) (origin target : Nat) (written : BitVec 64 × List UInt8) : Prop :=
  issue.origin = origin ∧ issue.target = target ∧ Fulfils issue (written.1,written.2.length,.buffer written.2)

-- Where a write into a heap comes from: the barrier, or a put that was issued.
def Traced (cluster : Cluster) (issued : List Issue) (origin target : Nat) (written : BitVec 64 × List UInt8) : Prop :=
  (∃ slot < cluster.n, written.1 = cluster.slotOffset slot ∧ written.2.length = 4) ∨
    ∃ issue ∈ issued, issue.Answers origin target written

def Issue.Made (issue : Issue) (me : Nat) (job : WorkJob) : Prop :=
  issue.origin = me ∧ issue.target = job.destPe ∧ issue.dest = job.dest ∧ issue.size = job.size.toNat ∧ issue.src = .caller

structure Traceable (cluster : Cluster) (s : System) : Prop where
  beside : ∀ issue ∈ s.issued, cluster.Apart issue.dest issue.size
  entered : ∀ put ∈ s.entered, Traced cluster s.issued put.origin put.target put.written
  applied : ∀ update ∈ s.applied, Traced cluster s.issued update.origin update.heap update.written
  own : ∀ me < cluster.n, ∀ job ∈ (s.pes me).jobs, job.src = .caller → ∃ issue ∈ s.issued, issue.Made me job

-- Outside of __pSync no byte of a heap changes but in a range that some application put to
-- that PE.
structure Accounted (cluster : Cluster) (s : System) : Prop where
  traced : ∀ update ∈ s.applied, Traced cluster s.issued update.origin update.heap update.written
  untouched : ∀ k address, address < cluster.pSync ∨ cluster.pSync + 4 * cluster.n ≤ address →
    (∀ issue ∈ s.issued, issue.target = k → address < issue.dest.toNat ∨ issue.dest.toNat + issue.size ≤ address) →
    s.heaps k address = System.start.heaps k address

variable {cluster : Cluster} {s t : System} {me pe slot i k : Nat}

theorem Traced.mono {issued more : List Issue} {written : BitVec 64 × List UInt8} (traced : Traced cluster issued i k written)
    (among : ∀ issue ∈ issued, issue ∈ more) : Traced cluster more i k written := by
  rcases traced with slot | ⟨issue,member,answers⟩
  · exact Or.inl slot
  · exact Or.inr ⟨issue,among issue member,answers⟩

theorem Traceable.issued {put : Issue} (traceable : Traceable cluster s) (apart : cluster.Apart put.dest put.size) :
    Traceable cluster (s.issue put) := by
  have among : ∀ old ∈ s.issued, old ∈ (s.issue put).issued := fun _ member => List.mem_append_left _ member
  refine ⟨?_,?_,?_,?_⟩
  · intro other member
    rcases List.mem_append.mp member with old | new
    · exact traceable.beside other old
    · cases List.mem_singleton.mp new
      exact apart
  · exact fun put member => (traceable.entered put member).mono among
  · exact fun update member => (traceable.applied update member).mono among
  · intro p inside job member caller
    obtain ⟨old,member,made⟩ := traceable.own p inside job member caller
    exact ⟨old,among old member,made⟩

theorem Traceable.write {actor origin heap : Nat} {dest : BitVec 64} {bytes : List UInt8} (traceable : Traceable cluster s)
    (traced : Traced cluster s.issued origin heap (dest,bytes)) : Traceable cluster (s.write actor origin heap dest bytes) := by
  refine ⟨traceable.beside,traceable.entered,?_,traceable.own⟩
  intro update member
  rcases List.mem_append.mp member with old | new
  · exact traceable.applied update old
  · cases List.mem_singleton.mp new
    exact traced

-- Jobs that are gone, or that were fetched, take nothing away.
theorem Traceable.quiet (traceable : Traceable cluster s) (issued : t.issued = s.issued) (entered : t.entered = s.entered)
    (applied : t.applied = s.applied)
    (jobs : ∀ p < cluster.n, ∀ job ∈ (t.pes p).jobs, job.src = .caller → job ∈ (s.pes p).jobs) : Traceable cluster t := by
  refine ⟨?_,?_,?_,?_⟩
  · rw [issued]
    exact traceable.beside
  · rw [issued,entered]
    exact traceable.entered
  · rw [issued,applied]
    exact traceable.applied
  · intro p inside job member caller
    rw [issued]
    exact traceable.own p inside job (jobs p inside job member caller) caller

theorem Traceable.commPut (traceable : Traceable cluster s) (wired : cluster.WiredUp)
    (traced : Traced cluster s.issued me pe (dest,src.bytes))
    (ran : s.commPut cluster me me dest src pe prior = some t) : Traceable cluster t := by
  have jobs := fun p => (commPut_thread ran p).2.2.2
  obtain ⟨_,⟨_,rfl⟩ | ⟨_,rfl⟩⟩ := commPut_cases wired ran
  · exact traceable.write traced
  · refine ⟨traceable.beside,?_,traceable.applied,?_⟩
    · intro put member
      rcases List.mem_append.mp member with old | new
      · exact traceable.entered put old
      · cases List.mem_singleton.mp new
        exact traced
    · intro p inside job member caller
      rw [jobs] at member
      exact traceable.own p inside job member caller

theorem jobs_setPe {entry : Pe} (fewer : ∀ job ∈ entry.jobs, job.src = .caller → job ∈ (s.pes me).jobs) :
    ∀ p, ∀ job ∈ ((s.setPe me entry).pes p).jobs, job.src = .caller → job ∈ (s.pes p).jobs := by
  intro p job member caller
  by_cases here : p = me
  · subst p
    rw [pes_setPe,Function.update_self] at member
    exact fewer job member caller
  · rw [pes_setPe,Function.update_of_ne here] at member
    exact member

theorem Traceable.setPe (traceable : Traceable cluster s) {entry : Pe}
    (fewer : ∀ job ∈ entry.jobs, job.src = .caller → job ∈ (s.pes me).jobs) : Traceable cluster (s.setPe me entry) :=
  traceable.quiet rfl rfl rfl fun p _ => jobs_setPe fewer p

theorem Traceable.putNbi {size : BitVec 64} (traceable : Traceable cluster s)
    (apart : cluster.Apart dest size.toNat) (round : Nat) :
    Traceable cluster ((s.issue ⟨me,pe,dest,size.toNat,.caller,round⟩).setPe me {s.pes me with
      workQueue := (s.pes me).workQueue ++ [⟨handlerPut,pe,BitVec.ofNat 32 me,dest,.caller,size⟩]}) := by
  have issued : Traceable cluster (s.issue ⟨me,pe,dest,size.toNat,.caller,round⟩) := traceable.issued apart
  refine ⟨issued.beside,issued.entered,issued.applied,?_⟩
  intro p inside job member caller
  by_cases here : p = me
  · subst p
    rw [pes_setPe,Function.update_self] at member
    simp only [Pe.jobs,← List.append_assoc] at member
    rcases List.mem_append.mp member with old | new
    · exact issued.own me inside job old caller
    · cases List.mem_singleton.mp new
      exact ⟨_,List.mem_append_right _ List.mem_cons_self,rfl,rfl,rfl,rfl,rfl⟩
  · rw [pes_setPe,Function.update_of_ne here] at member
    exact issued.own p inside job member caller

theorem Traceable.perform (traceable : Traceable cluster s) (wired : cluster.WiredUp)
    (slots : ∀ slot, effect = .zero slot → slot < cluster.n)
    (signals : ∀ pe slot, effect = .signal pe slot → slot < cluster.n)
    (ran : s.perform cluster me prior effect = some t) : Traceable cluster t := by
  have barrier : ∀ slot < cluster.n, ∀ value : BitVec 32, ∀ pe,
      Traced cluster s.issued me pe (cluster.slotOffset slot,(intBytes value).bytes) :=
    fun slot inside value _ => Or.inl ⟨slot,inside,rfl,intBytes_length value⟩
  cases effect with
  | nothing =>
    cases ran
    exact traceable
  | call =>
    cases ran
    exact traceable.setPe fun _ member _ => member
  | ret =>
    cases ran
    exact traceable.setPe fun _ member _ => member
  | zero slot =>
    cases ran
    exact traceable.write (barrier slot (slots slot rfl) 0 me)
  | signal pe slot => exact traceable.commPut wired (barrier slot (signals pe slot rfl) 1 pe) ran

theorem Traceable.execute (traceable : Traceable cluster s) (piped : Piped cluster s) (inside : me < cluster.n)
    (busy : (s.pes me).busy = some job)
    (ran : (s.setPe me {s.pes me with busy := none}).execute cluster me job contents prior = some t) : Traceable cluster t := by
  have jobs := jobs_busy busy
  have member : job ∈ (s.pes me).jobs := by
    rw [jobs]
    exact List.mem_cons_self
  have finished : Traceable cluster (s.setPe me {s.pes me with busy := none}) := by
    refine traceable.setPe fun other there _ => ?_
    rw [jobs]
    exact List.mem_cons_of_mem _ there
  rcases execute_cases piped inside busy ran with ⟨own,src,size,put⟩ | ⟨i,bytes,peers,made,rfl⟩
  · obtain ⟨issue,issued,origin,target,dest,length,source⟩ := traceable.own me inside job member own.2.2.1
    refine finished.commPut piped.wired (Or.inr ⟨issue,issued,origin,target,?_⟩) put
    exact ⟨dest,length.trans size.symm,Or.inl source⟩
  · have fetched : job ∈ s.fetched i me := List.mem_filter.mpr ⟨member,by rw [made]; simp⟩
    obtain ⟨call,called,same⟩ := List.mem_map.mp ((piped.flow i me peers).fetched fetched).1
    obtain ⟨entered,both⟩ := List.mem_filter.mp called
    have traced := traceable.entered call entered
    have written : call.written = (job.dest,bytes) := by
      rw [same,made]
      rfl
    simp only [decide_eq_true_eq] at both
    rw [written,both.1,both.2] at traced
    exact finished.write traced

theorem step_traceable (signalled : Signalled cluster s) (traceable : Traceable cluster s) (reliable : Reliable cluster s event)
    (found : PayloadFound event) (beside : Beside cluster event) (moved : s.step cluster event = some t) : Traceable cluster t := by
  have piped := signalled.toPiped
  unfold System.step at moved
  split at moved
  · rename_i inside
    cases event with
    | put me dest src pe prior =>
      simp only [System.move] at moved
      split at moved
      · have issued : Traceable cluster (s.issue ⟨me,pe,dest,src.bytes.length,.buffer src.bytes,(s.pes me).calls⟩) :=
          traceable.issued beside
        refine issued.commPut piped.wired (Or.inr ⟨_,List.mem_append_right _ List.mem_cons_self,?_⟩) moved
        exact ⟨rfl,rfl,rfl,rfl,Or.inr rfl⟩
      · cases moved
    | putNbi me dest size pe =>
      simp only [System.move] at moved
      split at moved
      · cases moved
        exact traceable.putNbi beside _
      · cases moved
    | sync me prior =>
      obtain ⟨⟨pc,effect⟩,advanced,performed⟩ := Option.bind_eq_some_iff.mp moved
      obtain ⟨b,abstracts,balanced,_⟩ := signalled.barrier
      have signals := sync_signals abstracts balanced inside advanced
      have before : Traceable cluster (s.setPe me {s.pes me with pc := pc}) := traceable.setPe fun _ member _ => member
      refine before.perform piped.wired ?_ ?_ performed
      · exact fun slot zero => (signals.zero slot zero).2.1
      · exact fun pe slot signal => (signals.signal pe slot signal).1.2.1
    | dequeue me =>
      simp only [System.move] at moved
      split at moved
      · rename_i job rest idle queued
        cases moved
        refine traceable.setPe fun other member _ => ?_
        simpa [Pe.jobs,idle,queued] using member
      · cases moved
    | execute me contents prior =>
      obtain ⟨job,busy,ran⟩ := Option.bind_eq_some_iff.mp moved
      exact traceable.execute piped inside busy ran
    | send me result =>
      have here : me < cluster.n := inside
      obtain ⟨pe,packet,rest,stamp,indices,front,peers,rfl⟩ := send_cases piped here reliable moved
      refine traceable.quiet rfl rfl rfl fun p _ => jobs_setPe (s := s) ?_ p
      exact fun _ member _ => member
    | receive me index reads =>
      have here : me < cluster.n := inside
      obtain ⟨peer,buffer,peers,cases⟩ := receive_cases here reliable found moved
      obtain ⟨packets,streams,_,_⟩ := piped.flow peer me peers
      rcases cases packets streams with rfl | ⟨packet,rest,rfl,rfl⟩
      · exact traceable.setPe fun _ member _ => member
      · refine traceable.quiet rfl rfl rfl fun p _ => jobs_setPe (s := s) ?_ p
        intro job member caller
        simp only [Pe.jobs,← List.append_assoc] at member
        rcases List.mem_append.mp member with old | new
        · exact old
        · cases List.mem_singleton.mp new
          cases caller
  · cases moved

def Update.placed (update : Update) : Nat × List UInt8 := (update.dest.toNat,update.bytes)

theorem Recorded.replay (recorded : Recorded cluster s) (k : Nat) :
    s.heaps k = ByteMemory.replay (System.start.heaps k) ((s.applied.filter (·.heap = k)).map Update.placed) := by
  rw [recorded.heaps k]
  unfold ByteMemory.replay
  rw [List.foldl_map]
  rfl

-- The slots of the barrier take up __pSync and nothing else.
theorem slot_range {written : BitVec 64 × List UInt8} (inside : slot < cluster.n) (dest : written.1 = cluster.slotOffset slot)
    (size : written.2.length = 4) :
    cluster.pSync ≤ written.1.toNat ∧ written.1.toNat + written.2.length ≤ cluster.pSync + 4 * cluster.n := by
  have place := slotOffset_toNat inside
  rw [dest,place,size]
  omega

theorem Traceable.accounted (traceable : Traceable cluster s) (recorded : Recorded cluster s) : Accounted cluster s := by
  refine ⟨traceable.applied,?_⟩
  intro k address outside free
  rw [recorded.replay k]
  refine ByteMemory.replay_outside ?_
  intro write member
  obtain ⟨update,among,rfl⟩ := List.mem_map.mp member
  obtain ⟨applied,target⟩ := List.mem_filter.mp among
  have heap : update.heap = k := by simpa using target
  rcases traceable.applied update applied with ⟨slot,inside,dest,size⟩ | ⟨issue,issued,_,same,dest,size,_⟩
  · have range := slot_range inside dest size
    simp only [Update.placed,Update.written] at range ⊢
    omega
  · have beside := free issue issued (same.trans heap)
    rw [dest,size] at beside
    exact beside

theorem start_traceable (cluster : Cluster) : Traceable cluster System.start := by
  refine ⟨?_,?_,?_,?_⟩
  · intro issue member
    cases member
  · intro put member
    cases member
  · intro update member
    cases member
  · intro p _ job member
    cases member

structure Accountable (cluster : Cluster) (s : System) : Prop where
  signalled : Signalled cluster s
  traceable : Traceable cluster s

theorem run_accountable (wired : cluster.WiredUp)
    (meets : (systems cluster).Meets (fun s event => (Reliable cluster s event ∧ PayloadFound event) ∧
      Beside cluster event) System.start events) (ran : (systems cluster).run System.start events = some s) :
    Accountable cluster s := by
  have kept : ∀ s event t, Accountable cluster s → (Reliable cluster s event ∧ PayloadFound event) ∧
      Beside cluster event → (systems cluster).step s event = some t → Accountable cluster t := by
    intro s event t both met moved
    obtain ⟨signalled,traceable⟩ := both
    obtain ⟨⟨reliable,found⟩,beside⟩ := met
    exact ⟨step_signalled signalled reliable found beside moved,step_traceable signalled traceable reliable found beside moved⟩
  exact Guarded.Machine.run_keeps kept ⟨(start_completing wired).signalled,start_traceable cluster⟩ meets ran

end OpenShmem
