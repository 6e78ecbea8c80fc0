import OpenShmem.Comm.Provenance

namespace OpenShmem

def handlerGet : BitVec 8 := 1

-- The calls of shmem_getmem_nbi among the steps of the system. `dest` is an address of the
-- caller's.
inductive GetEvent where
  | getNbi (me : Nat) (dest : BitVec 64) (size : BitVec 64) (pe : Nat)
  | run (event : Event)
deriving DecidableEq

def GetEvent.event : GetEvent → Option Event
  | .getNbi _ _ _ _ => none
  | .run event => some event

-- comm_get_nbi
def System.getNbi (cluster : Cluster) (s : System) (me : Nat) (dest size : BitVec 64) (pe : Nat) : Option System :=
  if me < cluster.n ∧ pe < cluster.n ∧ (s.pes me).pc = .outside then
    let job : WorkJob := ⟨handlerGet,pe,BitVec.ofNat 32 me,dest,.caller,size⟩
    some (s.setPe me {s.pes me with workQueue := (s.pes me).workQueue ++ [job]})
  else none

def System.stepGets (cluster : Cluster) (s : System) : GetEvent → Option System
  | .getNbi me dest size pe => s.getNbi cluster me dest size pe
  | .run event => s.step cluster event

def getSystems (cluster : Cluster) : Guarded.Machine System GetEvent := ⟨System.stepGets cluster⟩

-- A job that shmem_getmem_nbi made.
def WorkJob.Gets (job : WorkJob) : Prop := job.handler = handlerGet ∧ job.src = .caller

instance (job : WorkJob) : Decidable job.Gets := inferInstanceAs (Decidable (_ ∧ _))

def Pe.withoutGets (pe : Pe) : Pe := {pe with
  workQueue := pe.workQueue.filter fun job => ¬ job.Gets
  busy := pe.busy.filter fun job => ¬ job.Gets}

def System.withoutGets (s : System) : System := {s with pes := fun p => (s.pes p).withoutGets}

def GetEvent.Meets (cluster : Cluster) (s : System) : GetEvent → Prop
  | .getNbi _ _ _ _ => True
  | .run event => (Reliable cluster s event ∧ PayloadFound event) ∧ Beside cluster event

instance (cluster : Cluster) (s : System) : (event : GetEvent) → Decidable (event.Meets cluster s)
  | .getNbi _ _ _ _ => inferInstanceAs (Decidable True)
  | .run event => inferInstanceAs (Decidable ((Reliable cluster s event ∧ PayloadFound event) ∧ Beside cluster event))

section Views
variable {cluster : Cluster} {s t : System} {me pe origin : Nat} {dest prior : BitVec 64} {src : Source} {contents : List UInt8}

theorem withoutGets_setPe (s : System) (me : Nat) (entry : Pe) :
    (s.setPe me entry).withoutGets = s.withoutGets.setPe me entry.withoutGets := by
  have same : (fun p => (Function.update s.pes me entry p).withoutGets) =
      Function.update (fun p => (s.pes p).withoutGets) me entry.withoutGets := by
    funext p
    by_cases here : p = me
    · subst p
      simp
    · simp [here]
  simp only [System.withoutGets,System.setPe,same]

-- A change of a PE that the view does not show.
theorem withoutGets_hidden {entry : Pe} (same : entry.withoutGets = (s.pes me).withoutGets) :
    (s.setPe me entry).withoutGets = s.withoutGets := by
  rw [withoutGets_setPe,same]
  have kept : Function.update s.withoutGets.pes me (s.pes me).withoutGets = s.withoutGets.pes := Function.update_eq_self me _
  simp only [System.setPe,kept]

theorem withoutGets_enqueue (s : System) (me pe : Nat) (dest : BitVec 64) (src : Source) (prior : BitVec 64) :
    (s.enqueue me pe dest src prior).withoutGets = s.withoutGets.enqueue me pe dest src prior := by
  have moved := withoutGets_setPe s me {s.pes me with queue :=
    {(s.pes me).queue with queue := (s.pes me).queue.queue ++ [(pe,putPacket me dest src prior)]}}
  have pes := congrArg System.pes moved
  unfold System.enqueue
  simp only [System.withoutGets] at pes ⊢
  rw [pes]
  rfl

theorem withoutGets_commPut (ran : s.commPut cluster me origin dest src pe prior = some t) :
    s.withoutGets.commPut cluster me origin dest src pe prior = some t.withoutGets := by
  obtain ⟨entry,found,moved⟩ := Option.bind_eq_some_iff.mp ran
  unfold System.commPut
  rw [found]
  simp only [Option.bind_eq_bind,Option.bind_some]
  cases type : entry.type with
  | near =>
    rw [type] at moved
    obtain ⟨heap,shown,made⟩ := Option.bind_eq_some_iff.mp moved
    cases made
    simp only [shown,Option.bind_some]
    rfl
  | remote =>
    rw [type] at moved
    cases moved
    rw [withoutGets_enqueue]

theorem withoutGets_perform (ran : s.perform cluster me prior effect = some t) :
    s.withoutGets.perform cluster me prior effect = some t.withoutGets := by
  cases effect with
  | signal pe slot => exact withoutGets_commPut ran
  | call =>
    cases ran
    rw [withoutGets_setPe]
    rfl
  | ret =>
    cases ran
    rw [withoutGets_setPe]
    rfl
  | _ =>
    cases ran
    rfl

theorem withoutGets_execute (ran : s.execute cluster me job contents prior = some t) :
    s.withoutGets.execute cluster me job contents prior = some t.withoutGets := by
  unfold System.execute at ran ⊢
  split
  · rename_i handler
    rw [if_pos handler] at ran
    split
    · rename_i fits
      rw [dif_pos fits] at ran
      exact withoutGets_commPut ran
    · rename_i short
      rw [dif_neg short] at ran
      cases ran
  · rename_i other
    rw [if_neg other] at ran
    cases ran
    rfl

theorem gets_execute (gets : job.Gets) : s.execute cluster me job contents prior = some s := by
  unfold System.execute
  rw [gets.1,if_neg (by decide)]

end Views

section Steps
variable {cluster : Cluster} {s t : System} {me peer : Nat} {job : WorkJob} {rest : List WorkJob}

theorem dequeue_gets (idle : (s.pes me).busy = none) (queued : (s.pes me).workQueue = job :: rest) (gets : job.Gets) :
    ({s.pes me with busy := some job, workQueue := rest} : Pe).withoutGets = (s.pes me).withoutGets := by
  simp [Pe.withoutGets,idle,queued,gets]

theorem dequeue_other (other : ¬ job.Gets) : ({s.pes me with busy := some job, workQueue := rest} : Pe).withoutGets =
    {(s.pes me).withoutGets with busy := some job, workQueue := rest.filter fun job => ¬ job.Gets} := by
  simp [Pe.withoutGets,Option.filter_some,other]

theorem receiveSocket_keeps (ran : receiveSocket me packetBuf stream reads = some (packetBuf',stream',some job)) : ¬ job.Gets := by
  unfold receiveSocket at ran
  split at ran
  · cases ran
  · split at ran
    · cases ran
    · simp only at ran
      split at ran
      · cases ran
      · split at ran
        · cases ran
        · split at ran
          · cases ran
            intro gets
            cases gets.2
          · cases ran

theorem send_withoutGets (moved : s.move cluster (.send me result) = some t) :
    s.withoutGets.move cluster (.send me result) = some t.withoutGets := by
  obtain ⟨⟨queue,index,packet⟩,taken,made⟩ := Option.bind_eq_some_iff.mp moved
  obtain ⟨peer,found,written⟩ := Option.bind_eq_some_iff.mp made
  have same : dequeueStamped (cluster.localityMap me) (s.withoutGets.pes me).queue = some (queue,index,packet) := taken
  simp only [System.move,same,found,Option.bind_eq_bind,Option.bind_some]
  split at written
  · rename_i writable
    rw [if_pos writable]
    cases written
    have view := congrArg System.pes (withoutGets_setPe s me {s.pes me with queue := queue})
    simp only [System.withoutGets] at view ⊢
    rw [view]
    rfl
  · cases written

-- What the communication thread hands over is a put, which stays.
theorem receive_withoutGets (moved : s.move cluster (.receive me index reads) = some t) :
    s.withoutGets.move cluster (.receive me index reads) = some t.withoutGets := by
  obtain ⟨peer,found,received⟩ := Option.bind_eq_some_iff.mp moved
  obtain ⟨⟨packetBuf,stream,job⟩,read,made⟩ := Option.bind_eq_some_iff.mp received
  cases made
  have same : receiveSocket me (s.withoutGets.pes me).packetBuf (s.withoutGets.streams peer me) reads =
      some (packetBuf,stream,job) := read
  simp only [System.move,found,same,Option.bind_eq_bind,Option.bind_some]
  have kept : job.toList.filter (fun job => ¬ job.Gets) = job.toList := by
    cases job with
    | none => rfl
    | some job => simp [receiveSocket_keeps read]
  have view := congrArg System.pes (withoutGets_setPe s me
    {s.pes me with packetBuf := packetBuf, workQueue := (s.pes me).workQueue ++ job.toList})
  have entry : ({s.pes me with packetBuf := packetBuf, workQueue := (s.pes me).workQueue ++ job.toList} : Pe).withoutGets =
      {(s.pes me).withoutGets with packetBuf := packetBuf, workQueue := (s.pes me).withoutGets.workQueue ++ job.toList} := by
    simp only [Pe.withoutGets,List.filter_append,kept]
  rw [entry] at view
  simp only [System.withoutGets] at view ⊢
  rw [view]
  rfl

-- Each step is one of the system without the gets, or is not seen there.
theorem step_withoutGets (moved : s.step cluster event = some t) :
    t.withoutGets = s.withoutGets ∨ s.withoutGets.step cluster event = some t.withoutGets := by
  unfold System.step at moved
  split at moved
  · rename_i inside
    unfold System.step
    rw [if_pos inside]
    cases event with
    | put me dest src pe prior =>
      right
      simp only [System.move] at moved ⊢
      split at moved
      · rename_i free
        rw [if_pos (show pe < cluster.n ∧ (s.withoutGets.pes me).pc = .outside from free)]
        exact withoutGets_commPut moved
      · cases moved
    | putNbi me dest size pe =>
      right
      simp only [System.move] at moved ⊢
      split at moved
      · rename_i free
        rw [if_pos (show pe < cluster.n ∧ (s.withoutGets.pes me).pc = .outside from free)]
        cases moved
        rw [withoutGets_setPe]
        have mine : ¬ WorkJob.Gets ⟨handlerPut,pe,BitVec.ofNat 32 me,dest,.caller,size⟩ := fun gets => by cases gets.1
        simp [Pe.withoutGets,System.withoutGets,System.issue,mine]
      · cases moved
    | sync me prior =>
      right
      obtain ⟨⟨pc,effect⟩,advanced,performed⟩ := Option.bind_eq_some_iff.mp moved
      have after := withoutGets_perform performed
      rw [withoutGets_setPe] at after
      simp only [System.move]
      have same : commBarrierAll cluster.n me (s.withoutGets.slots cluster me) (s.withoutGets.pes me).pc = some (pc,effect) := advanced
      rw [same]
      exact after
    | dequeue me =>
      simp only [System.move] at moved
      split at moved
      · rename_i job rest idle queued
        cases moved
        by_cases gets : job.Gets
        · exact Or.inl (withoutGets_hidden (dequeue_gets idle queued gets))
        · right
          have busy : (s.withoutGets.pes me).busy = none := by simp [System.withoutGets,Pe.withoutGets,idle]
          have queue : (s.withoutGets.pes me).workQueue = job :: rest.filter fun job => ¬ job.Gets := by
            simp [System.withoutGets,Pe.withoutGets,queued,gets]
          simp only [System.move,busy,queue]
          rw [withoutGets_setPe,dequeue_other gets]
          rfl
      · cases moved
    | execute me contents prior =>
      obtain ⟨job,busy,ran⟩ := Option.bind_eq_some_iff.mp moved
      by_cases gets : job.Gets
      · left
        rw [gets_execute gets] at ran
        cases ran
        exact withoutGets_hidden (by simp [Pe.withoutGets,busy,Option.filter_some,gets])
      · right
        have after := withoutGets_execute ran
        rw [withoutGets_setPe] at after
        have holds : (s.withoutGets.pes me).busy = some job := by simp [System.withoutGets,Pe.withoutGets,busy,gets]
        simp only [System.move,holds,Option.bind_eq_bind,Option.bind_some]
        exact after
    | send me result => exact Or.inr (send_withoutGets moved)
    | receive me index reads => exact Or.inr (receive_withoutGets moved)
  · cases moved

theorem getNbi_withoutGets (called : s.getNbi cluster me dest size pe = some t) : t.withoutGets = s.withoutGets := by
  unfold System.getNbi at called
  split at called
  · cases called
    have gets : WorkJob.Gets ⟨handlerGet,pe,BitVec.ofNat 32 me,dest,.caller,size⟩ := ⟨rfl,rfl⟩
    exact withoutGets_hidden (by simp [Pe.withoutGets,gets])
  · cases called

end Steps

-- A run with gets is a run without them in which each heap, queue, socket and barrier call
-- is the same: nothing is fetched, and nothing else is held up or changed.
structure Vain (cluster : Cluster) (events : List GetEvent) (s : System) (puts : List Event) : Prop where
  among : puts.Sublist (events.filterMap GetEvent.event)
  ran : (systems cluster).run System.start puts = some s.withoutGets
  meets : (getSystems cluster).Meets (fun s event => event.Meets cluster s) System.start events →
    (systems cluster).Meets (fun s event => (Reliable cluster s event ∧ PayloadFound event) ∧ Beside cluster event) System.start puts
  safe : cluster.WiredUp → (getSystems cluster).Meets (fun s event => event.Meets cluster s) System.start events →
    SyncSafe cluster s ∧ Accounted cluster s

theorem gets_vain (cluster : Cluster) (events : List GetEvent) (ran : (getSystems cluster).run System.start events = some s) :
    ∃ puts, Vain cluster events s puts := by
  have erases : ∀ s event t, (getSystems cluster).step s event = some t → t.withoutGets = s.withoutGets ∨
      ∃ kept, GetEvent.event event = some kept ∧ (systems cluster).step s.withoutGets kept = some t.withoutGets := by
    intro s event t stepped
    cases event with
    | getNbi me dest size pe => exact Or.inl (getNbi_withoutGets stepped)
    | run event =>
      rcases step_withoutGets stepped with same | taken
      · exact Or.inl same
      · exact Or.inr ⟨event,rfl,taken⟩
  let guard : System → GetEvent → Prop := fun s event => event.Meets cluster s
  let demand : System → Event → Prop := fun s event => (Reliable cluster s event ∧ PayloadFound event) ∧ Beside cluster event
  have demands : ∀ s event kept, GetEvent.event event = some kept → guard s event → demand s.withoutGets kept := by
    intro s event kept same met
    cases event with
    | getNbi me dest size pe => cases same
    | run event =>
      cases same
      obtain ⟨⟨reliable,found⟩,beside⟩ := met
      refine ⟨⟨?_,found⟩,beside⟩
      cases kept with
      | send me result => exact reliable
      | receive me index reads => exact reliable
      | _ => trivial
  obtain ⟨puts,among,moved,met⟩ := Guarded.Machine.run_erases erases demands ran
  refine ⟨puts,among,moved,met,fun wired meets => ?_⟩
  obtain ⟨signalled,traceable⟩ := run_accountable wired (met meets) moved
  obtain ⟨order,single,empty⟩ := signalled.syncSafe
  obtain ⟨traced,untouched⟩ := traceable.accounted signalled.toRecorded
  exact ⟨⟨order,single,empty⟩,⟨traced,untouched⟩⟩

-- A get in front of a put: the worker takes both, and the put alone is sent.
theorem gets_vain_two : ∃ s, (getSystems pairCluster).run System.start ([.getNbi 0 4096 8 1] ++
      [.putNbi 0 64 3 1,.dequeue 0,.execute 0 [] 0,.dequeue 0,.execute 0 [7,8,9] 5].map GetEvent.run) = some s ∧
    s.entered.length = 1 ∧ ∃ puts, Vain pairCluster ([.getNbi 0 4096 8 1] ++
      [.putNbi 0 64 3 1,.dequeue 0,.execute 0 [] 0,.dequeue 0,.execute 0 [7,8,9] 5].map GetEvent.run) s puts := by
  let events : List GetEvent := [.getNbi 0 4096 8 1] ++
    [.putNbi 0 64 3 1,.dequeue 0,.execute 0 [] 0,.dequeue 0,.execute 0 [7,8,9] 5].map GetEvent.run
  have sent : ((getSystems pairCluster).run System.start events).map (fun s => s.entered.length) = some 1 := by decide +kernel
  obtain ⟨s,ran,one⟩ := Option.map_eq_some_iff.mp sent
  exact ⟨s,ran,one,gets_vain pairCluster events ran⟩

end OpenShmem
