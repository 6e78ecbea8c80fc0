import OpenShmem.Comm.System

namespace OpenShmem

-- Where the three threads of a PE stand: the application in comm_finalize, the worker in
-- __work_thread_run and the communication thread in __comm_thread.
inductive AppPc where
  | running
  | called
  | joinWorker
  | joined
  | joinComm
  | stopped
  | closed
  | returned
  | aborted
deriving DecidableEq, Repr

inductive WorkerPc where
  | test
  | dequeue
  | execute
  | done
deriving DecidableEq, Repr

inductive CommPc where
  | test
  | receive (i : Nat)
  | check
  | write
  | done
deriving DecidableEq, Repr

-- One PE of the system. Ghosts: the jobs that the worker executed, the packets that were
-- written once and freed with the result of write, and what had been put when
-- comm_finalize was called.
structure Process where
  system : System
  app : AppPc
  worker : WorkerPc
  comm : CommPc
  workFinished : Bool
  commFinished : Bool
  executed : List WorkJob
  freed : List ((Nat × Packet) × Option Nat)
  dueJobs : List WorkJob
  duePackets : List (Nat × Packet)

inductive ProcessEvent where
  | other (event : Event)
  | call (event : Event)
  | finalize (survives : Bool)
  | work (contents : List UInt8) (prior : BitVec 64)
  | comm (reads : Reads) (result : Option Nat)
deriving DecidableEq

def Event.called : Event → Bool
  | .put _ _ _ _ _ => true
  | .putNbi _ _ _ _ => true
  | .sync _ _ => true
  | _ => false

-- work_finalize and comm_remote_finalize each set the flag of a thread and join it.
-- comm_local_finalize and comm_node_finalize then free the PE's heap object, and what is in
-- its place decides whether comm_heap_free(__pSync), which still reads it, comes back.
def commFinalize (me : Nat) (s : Process) (survives : Bool) : Option Process :=
  match s.app with
  | .running =>
    if (s.system.pes me).pc = .outside then
      some {s with
        app := .called
        dueJobs := s.executed ++ (s.system.pes me).jobs
        duePackets := s.freed.map Prod.fst ++ (s.system.pes me).queue.queue}
    else none
  | .called => some {s with app := .joinWorker, workFinished := true}
  | .joinWorker => if s.worker = .done then some {s with app := .joined} else none
  | .joined => some {s with app := .joinComm, commFinished := true}
  | .joinComm => if s.comm = .done then some {s with app := .stopped} else none
  | .stopped => some {s with app := .closed}
  | .closed => some {s with app := if survives then .returned else .aborted}
  | .returned => none
  | .aborted => none

def workThreadRun (cluster : Cluster) (me : Nat) (s : Process) (contents : List UInt8) (prior : BitVec 64) : Option Process :=
  match s.worker with
  | .test => some {s with worker := if s.workFinished then .done else .dequeue}
  | .dequeue =>
    match (s.system.pes me).workQueue with
    | [] => some {s with worker := .test}
    | _ :: _ => (s.system.step cluster (.dequeue me)).map fun system => {s with system := system, worker := .execute}
  | .execute => do
    let job ← (s.system.pes me).busy
    let system ← s.system.step cluster (.execute me contents prior)
    return {s with system := system, worker := .test, executed := s.executed ++ [job]}
  | .done => none

def commThread (cluster : Cluster) (me : Nat) (s : Process) (reads : Reads) (result : Option Nat) : Option Process :=
  match s.comm with
  | .test => some {s with comm := if s.commFinished then .done else .receive 0}
  | .receive i =>
    if i < (cluster.remotes me).length then
      (s.system.step cluster (.receive me i reads)).map fun system => {s with system := system, comm := .receive (i+1)}
    else some {s with comm := .check}
  | .check => some {s with comm := if (s.system.pes me).queue.queue = [] then .test else .write}
  | .write =>
    match (s.system.pes me).queue.queue with
    | [] => none
    | entry :: _ => (s.system.step cluster (.send me result)).map fun system =>
      {s with system := system, comm := .check, freed := s.freed ++ [(entry,result)]}
  | .done => none

-- The other PEs take any steps, and the application calls the library until it finalizes.
def Process.step (cluster : Cluster) (me : Nat) (s : Process) : ProcessEvent → Option Process
  | .other event =>
    if event.me ≠ me then (s.system.step cluster event).map fun system => {s with system := system} else none
  | .call event =>
    if event.me = me ∧ event.called ∧ s.app = .running then
      (s.system.step cluster event).map fun system => {s with system := system}
    else none
  | .finalize survives => commFinalize me s survives
  | .work contents prior => workThreadRun cluster me s contents prior
  | .comm reads result => commThread cluster me s reads result

def Process.start : Process := ⟨System.start,.running,.test,.test,false,false,[],[],[],[]⟩

def processes (cluster : Cluster) (me : Nat) : Guarded.Machine Process ProcessEvent := ⟨Process.step cluster me⟩

-- What was put before the call is executed, and written whole.
structure Complete (s : Process) : Prop where
  jobs : s.dueJobs <+: s.executed
  packets : s.duePackets.map (fun entry => (entry,some entry.2.bytes.length)) <+: s.freed

-- Whether a thread that is told to stop still gets through what is due. The worker takes
-- one more job at most, and the communication thread empties its queue before the test.
def InTime (me : Nat) (s : Process) : ProcessEvent → Prop
  | .finalize _ =>
    (s.app = .called → s.dueJobs.length ≤ s.executed.length + if s.worker = .test then 0 else 1) ∧
    (s.app = .joined → s.comm = .test → s.duePackets.length ≤ s.freed.length)
  | .comm _ result =>
    s.comm = .write → s.app = .running ∨ s.freed.length < s.duePackets.length →
      ∀ entry, (s.system.pes me).queue.queue.head? = some entry → result = some entry.2.bytes.length
  | _ => True

instance (me : Nat) (s : Process) : (event : ProcessEvent) → Decidable (InTime me s event)
  | .other _ => inferInstanceAs (Decidable True)
  | .call _ => inferInstanceAs (Decidable True)
  | .finalize _ => inferInstanceAs (Decidable (_ ∧ _))
  | .work _ _ => inferInstanceAs (Decidable True)
  | .comm _ result => inferInstanceAs (Decidable (s.comm = .write → s.app = .running ∨ s.freed.length < s.duePackets.length →
      ∀ entry, (s.system.pes me).queue.queue.head? = some entry → result = some entry.2.bytes.length))

variable {cluster : Cluster} {s t : Process} {me : Nat}

-- A step that takes nothing from the queues of a PE.
structure Grew (pe next : Pe) : Prop where
  busy : next.busy = pe.busy
  work : pe.workQueue <+: next.workQueue
  queue : pe.queue.queue <+: next.queue.queue

theorem Grew.refl (pe : Pe) : Grew pe pe := ⟨rfl,List.prefix_refl _,List.prefix_refl _⟩

theorem Grew.trans (first : Grew pe middle) (second : Grew middle next) : Grew pe next :=
  ⟨second.busy.trans first.busy,first.work.trans second.work,first.queue.trans second.queue⟩

theorem Grew.jobs (grew : Grew pe next) : pe.jobs <+: next.jobs := by
  unfold Pe.jobs
  rw [grew.busy]
  exact (List.prefix_append_right_inj _).mpr grew.work

section Grown
variable {s t : System}

theorem setPe_grew (who : Nat) (grew : Grew (s.pes who) entry) (p : Nat) : Grew (s.pes p) ((s.setPe who entry).pes p) := by
  by_cases here : p = who
  · subst p
    simpa using grew
  · simpa [here] using Grew.refl (s.pes p)

theorem commPut_grew (ran : s.commPut cluster who origin dest src pe prior = some t) (p : Nat) :
    Grew (s.pes p) (t.pes p) := by
  obtain ⟨_,⟨_,_,_,_,_,rfl⟩ | ⟨_,rfl⟩⟩ := commPut_moves ran
  · exact Grew.refl _
  · apply setPe_grew who
    exact ⟨rfl,List.prefix_refl _,List.prefix_append _ _⟩

theorem perform_grew (ran : s.perform cluster who prior effect = some t) (p : Nat) : Grew (s.pes p) (t.pes p) := by
  cases effect with
  | nothing =>
    cases ran
    exact Grew.refl _
  | call =>
    cases ran
    apply setPe_grew who
    exact ⟨rfl,List.prefix_refl _,List.prefix_refl _⟩
  | ret =>
    cases ran
    apply setPe_grew who
    exact ⟨rfl,List.prefix_refl _,List.prefix_refl _⟩
  | zero slot =>
    cases ran
    exact Grew.refl _
  | signal pe slot => exact commPut_grew ran p

theorem execute_grew (ran : s.execute cluster who job contents prior = some t) (p : Nat) : Grew (s.pes p) (t.pes p) := by
  unfold System.execute at ran
  split at ran
  · split at ran
    · exact commPut_grew ran p
    · cases ran
  · cases ran
    exact Grew.refl _

-- The worker of a PE takes jobs, and its communication thread packets.
def Event.takes (me : Nat) : Event → Prop
  | .dequeue who => who = me
  | .execute who _ _ => who = me
  | .send who _ => who = me
  | _ => False

theorem Event.takes_own (event : Event) (takes : event.takes me) : event.me = me ∧ event.called = false := by
  cases event with
  | dequeue who => exact ⟨takes,rfl⟩
  | execute who contents prior => exact ⟨takes,rfl⟩
  | send who result => exact ⟨takes,rfl⟩
  | _ => cases takes

theorem step_grew (moved : s.step cluster event = some t) (quiet : ¬ event.takes me) : Grew (s.pes me) (t.pes me) := by
  unfold System.step at moved
  split at moved
  · cases event with
    | put who dest src pe prior =>
      simp only [System.move] at moved
      split at moved
      · exact commPut_grew moved me
      · cases moved
    | putNbi who dest size pe =>
      simp only [System.move] at moved
      split at moved
      · cases moved
        apply setPe_grew who
        exact ⟨rfl,List.prefix_append _ _,List.prefix_refl _⟩
      · cases moved
    | sync who prior =>
      obtain ⟨⟨pc,effect⟩,_,performed⟩ := Option.bind_eq_some_iff.mp moved
      have advanced : Grew (s.pes me) ((s.setPe who {s.pes who with pc := pc}).pes me) := by
        apply setPe_grew who
        exact ⟨rfl,List.prefix_refl _,List.prefix_refl _⟩
      exact advanced.trans (perform_grew performed me)
    | dequeue who =>
      simp only [System.move] at moved
      split at moved
      · cases moved
        simpa [Ne.symm quiet] using Grew.refl (s.pes me)
      · cases moved
    | execute who contents prior =>
      obtain ⟨job,_,ran⟩ := Option.bind_eq_some_iff.mp moved
      have grew := execute_grew ran me
      simpa [Ne.symm quiet] using grew
    | send who result =>
      obtain ⟨_,_,made⟩ := Option.bind_eq_some_iff.mp moved
      obtain ⟨_,_,written⟩ := Option.bind_eq_some_iff.mp made
      dsimp only at written
      split at written
      · cases written
        simpa [Ne.symm quiet] using Grew.refl (s.pes me)
      · cases written
    | receive who index reads =>
      obtain ⟨_,_,received⟩ := Option.bind_eq_some_iff.mp moved
      obtain ⟨_,_,made⟩ := Option.bind_eq_some_iff.mp received
      cases made
      apply setPe_grew who
      exact ⟨rfl,List.prefix_append _ _,List.prefix_refl _⟩
  · cases moved

theorem dequeue_taken (moved : s.step cluster (.dequeue me) = some t) : (t.pes me).jobs = (s.pes me).jobs ∧
    (t.pes me).busy.isSome ∧ (t.pes me).queue.queue = (s.pes me).queue.queue := by
  unfold System.step at moved
  split at moved
  · simp only [System.move] at moved
    split at moved
    · rename_i idle queued
      cases moved
      simp [Pe.jobs,idle,queued]
    · cases moved
  · cases moved

theorem execute_taken (moved : s.step cluster (.execute me contents prior) = some t)
    (busy : (s.pes me).busy = some job) : (s.pes me).jobs <+: job :: (t.pes me).jobs ∧ (t.pes me).busy = none ∧
      (s.pes me).queue.queue <+: (t.pes me).queue.queue := by
  unfold System.step at moved
  split at moved
  · obtain ⟨job',same,ran⟩ := Option.bind_eq_some_iff.mp moved
    dsimp only [Event.me] at same ran
    rw [busy] at same
    cases same
    have grew := execute_grew ran me
    simp only [pes_setPe,Function.update_self] at grew
    refine ⟨?_,grew.busy,grew.queue⟩
    have jobs := grew.jobs
    unfold Pe.jobs at jobs ⊢
    rw [busy]
    exact (List.prefix_cons_inj job).mpr jobs
  · cases moved

theorem send_taken (moved : s.step cluster (.send me result) = some t) : ∃ entry,
    (s.pes me).queue.queue = entry :: (t.pes me).queue.queue ∧ (t.pes me).jobs = (s.pes me).jobs ∧
      (t.pes me).busy = (s.pes me).busy := by
  unfold System.step at moved
  split at moved
  · obtain ⟨⟨queue,index,stamped⟩,ran,made⟩ := Option.bind_eq_some_iff.mp moved
    obtain ⟨_,_,written⟩ := Option.bind_eq_some_iff.mp made
    obtain ⟨pe,packet,_,front,_⟩ := dequeue_cases ran
    dsimp only at written
    split at written
    · cases written
      exact ⟨(pe,packet),by simpa using front,by simp [Pe.jobs],by simp⟩
    · cases written
  · cases moved

end Grown

def AppPc.workSet : AppPc → Bool
  | .running => false
  | .called => false
  | _ => true

-- Behind the second join.
def AppPc.stops : AppPc → Bool
  | .stopped => true
  | .closed => true
  | .returned => true
  | .aborted => true
  | _ => false

def AppPc.commSet (app : AppPc) : Bool := app = .joinComm || app.stops

def AppPc.workJoined (app : AppPc) : Bool := app = .joined || app.commSet

-- The flags and the joins follow the application's place in comm_finalize.
structure Flags (s : Process) : Prop where
  workFlag : s.workFinished = s.app.workSet
  commFlag : s.commFinished = s.app.commSet
  workDone : s.worker = .done → s.workFinished = true
  commDone : s.comm = .done → s.commFinished = true
  workJoined : s.app.workJoined = true → s.worker = .done
  commJoined : s.app.stops = true → s.comm = .done

-- What is due went through the queues in order, or is still in them.
structure Fifo (me : Nat) (s : Process) : Prop where
  hands : (s.system.pes me).busy.isSome = true ↔ s.worker = .execute
  jobs : s.app ≠ .running → s.dueJobs <+: s.executed ++ (s.system.pes me).jobs
  packets : s.app ≠ .running → s.duePackets <+: s.freed.map Prod.fst ++ (s.system.pes me).queue.queue

def Written (record : (Nat × Packet) × Option Nat) : Prop := record.2 = some record.1.2.bytes.length

-- What a thread that was told to stop still does is enough.
def WorkSafe (s : Process) : Prop :=
  s.workFinished = true → s.dueJobs.length ≤ s.executed.length + if s.worker = .test ∨ s.worker = .done then 0 else 1

def CommSafe (s : Process) : Prop :=
  (∀ record ∈ if s.app = .running then s.freed else s.freed.take s.duePackets.length, Written record) ∧
  (s.commFinished = true → s.comm = .test ∨ s.comm = .done → s.duePackets.length ≤ s.freed.length)

theorem AppPc.stops_sets {app : AppPc} (stops : app.stops = true) : app ≠ .running ∧ app.workSet = true ∧ app.commSet = true := by
  cases app with
  | running => cases stops
  | called => cases stops
  | joinWorker => cases stops
  | joined => cases stops
  | joinComm => cases stops
  | _ => exact ⟨AppPc.noConfusion,rfl,rfl⟩

-- Behind the second join nothing happens to the threads any more.
theorem Flags.onward {app : AppPc} (flags : Flags s) (stops : s.app.stops = true) (still : app.stops = true) :
    Flags {s with app := app} := by
  obtain ⟨_,work,comm⟩ := AppPc.stops_sets stops
  obtain ⟨_,work',comm'⟩ := AppPc.stops_sets still
  have joined : s.app.workJoined = true := by simp [AppPc.workJoined,comm]
  exact ⟨(flags.workFlag.trans work).trans work'.symm,(flags.commFlag.trans comm).trans comm'.symm,flags.workDone,flags.commDone,
    fun _ => flags.workJoined joined,fun _ => flags.commJoined stops⟩

theorem finalize_flags (flags : Flags s) (moved : commFinalize me s survives = some t) : Flags t := by
  have onward : ∀ app : AppPc, s.app.stops = true → app.stops = true → Flags {s with app := app} := fun _ => flags.onward
  obtain ⟨workFlag,commFlag,workDone,commDone,workJoined,commJoined⟩ := flags
  unfold commFinalize at moved
  split at moved
  · rename_i app
    split at moved
    · cases moved
      rw [app] at workFlag commFlag
      exact ⟨workFlag,commFlag,workDone,commDone,by simp [AppPc.workJoined,AppPc.commSet,AppPc.stops],by simp [AppPc.stops]⟩
    · cases moved
  · rename_i app
    cases moved
    rw [app] at commFlag
    exact ⟨rfl,commFlag,fun _ => rfl,commDone,by simp [AppPc.workJoined,AppPc.commSet,AppPc.stops],by simp [AppPc.stops]⟩
  · rename_i app
    split at moved
    · rename_i done
      cases moved
      rw [app] at workFlag commFlag
      exact ⟨workFlag,commFlag,workDone,commDone,fun _ => done,by simp [AppPc.stops]⟩
    · cases moved
  · rename_i app
    cases moved
    rw [app] at workFlag workJoined
    exact ⟨workFlag,rfl,workDone,fun _ => rfl,workJoined,by simp [AppPc.stops]⟩
  · rename_i app
    split at moved
    · rename_i done
      cases moved
      rw [app] at workFlag commFlag workJoined
      exact ⟨workFlag,commFlag,workDone,commDone,workJoined,fun _ => done⟩
    · cases moved
  · rename_i app
    cases moved
    exact onward .closed (by rw [app]; rfl) rfl
  · rename_i app
    cases moved
    exact onward _ (by rw [app]; rfl) (by cases survives <;> rfl)
  · cases moved
  · cases moved

-- A thread that is not done has not been joined, and ends only when its flag is set.
theorem work_flags {worker : WorkerPc} (flags : Flags s) (runs : s.worker ≠ .done) (ends : worker = .done → s.workFinished = true) :
    Flags {s with system := system, worker := worker, executed := executed} := by
  refine ⟨flags.workFlag,flags.commFlag,ends,flags.commDone,?_,flags.commJoined⟩
  intro joined
  exact False.elim (runs (flags.workJoined joined))

theorem comm_flags {comm : CommPc} (flags : Flags s) (runs : s.comm ≠ .done) (ends : comm = .done → s.commFinished = true) :
    Flags {s with system := system, comm := comm, freed := freed} := by
  refine ⟨flags.workFlag,flags.commFlag,flags.workDone,ends,flags.workJoined,?_⟩
  intro joined
  exact False.elim (runs (flags.commJoined joined))

theorem Fifo.system {system : System} (fifo : Fifo me s) (grew : Grew (s.system.pes me) (system.pes me)) :
    Fifo me {s with system := system} := by
  refine ⟨?_,?_,?_⟩
  · dsimp only
    rw [grew.busy]
    exact fifo.hands
  · intro called
    apply (fifo.jobs called).trans
    exact (List.prefix_append_right_inj _).mpr grew.jobs
  · intro called
    apply (fifo.packets called).trans
    exact (List.prefix_append_right_inj _).mpr grew.queue

theorem finalize_fifo (fifo : Fifo me s) (moved : commFinalize me s survives = some t) : Fifo me t := by
  unfold commFinalize at moved
  split at moved
  · split at moved
    · cases moved
      exact ⟨fifo.hands,fun _ => List.prefix_refl _,fun _ => List.prefix_refl _⟩
    · cases moved
  · rename_i app
    cases moved
    exact ⟨fifo.hands,fun _ => fifo.jobs (by simp [app]),fun _ => fifo.packets (by simp [app])⟩
  · rename_i app
    split at moved
    · cases moved
      exact ⟨fifo.hands,fun _ => fifo.jobs (by simp [app]),fun _ => fifo.packets (by simp [app])⟩
    · cases moved
  · rename_i app
    cases moved
    exact ⟨fifo.hands,fun _ => fifo.jobs (by simp [app]),fun _ => fifo.packets (by simp [app])⟩
  · rename_i app
    split at moved
    · cases moved
      exact ⟨fifo.hands,fun _ => fifo.jobs (by simp [app]),fun _ => fifo.packets (by simp [app])⟩
    · cases moved
  · rename_i app
    cases moved
    exact ⟨fifo.hands,fun _ => fifo.jobs (by simp [app]),fun _ => fifo.packets (by simp [app])⟩
  · rename_i app
    cases moved
    exact ⟨fifo.hands,fun _ => fifo.jobs (by simp [app]),fun _ => fifo.packets (by simp [app])⟩
  · cases moved
  · cases moved

-- What one step of the worker does to the jobs, and what it makes of those that are due.
theorem work_sound (flags : Flags s) (fifo : Fifo me s) (moved : workThreadRun cluster me s contents prior = some t) :
    Flags t ∧ Fifo me t ∧ (WorkSafe t ↔ WorkSafe s) ∧ (CommSafe t ↔ CommSafe s) := by
  have called : s.workFinished = true → s.app ≠ .running := by
    intro set app
    rw [flags.workFlag,app] at set
    cases set
  unfold workThreadRun at moved
  split at moved
  · rename_i worker
    have idle : ¬ (s.system.pes me).busy.isSome = true := by simp [fifo.hands,worker]
    cases moved
    refine ⟨?_,⟨?_,fifo.jobs,fifo.packets⟩,?_,Iff.rfl⟩
    · apply work_flags flags (by simp [worker])
      intro done
      split at done
      · assumption
      · cases done
    · dsimp only
      split <;> simp [idle]
    · unfold WorkSafe
      dsimp only
      by_cases set : s.workFinished = true
      · simp [set,worker]
      · simp [set]
  · rename_i worker
    split at moved
    · rename_i empty
      have idle : ¬ (s.system.pes me).busy.isSome = true := by simp [fifo.hands,worker]
      cases moved
      refine ⟨work_flags flags (by simp [worker]) (by simp),⟨by simp [idle],fifo.jobs,fifo.packets⟩,?_,Iff.rfl⟩
      -- With nothing queued and nothing in hand all that is due was executed.
      have enough : s.workFinished = true → s.dueJobs.length ≤ s.executed.length := by
        intro set
        have jobs : (s.system.pes me).jobs = [] := by
          simp only [Option.not_isSome_iff_eq_none] at idle
          simp [Pe.jobs,idle,empty]
        have due := (fifo.jobs (called set)).length_le
        rw [jobs,List.append_nil] at due
        exact due
      unfold WorkSafe
      constructor
      · intro _ set
        exact Nat.le_add_right_of_le (enough set)
      · intro _ set
        exact Nat.le_add_right_of_le (enough set)
    · obtain ⟨system,stepped,same⟩ := Option.map_eq_some_iff.mp moved
      subst same
      obtain ⟨jobs,busy,queue⟩ := dequeue_taken stepped
      refine ⟨work_flags flags (by simp [worker]) (by simp),⟨by simp [busy],?_,?_⟩,?_,Iff.rfl⟩
      · dsimp only
        rw [jobs]
        exact fifo.jobs
      · dsimp only
        rw [queue]
        exact fifo.packets
      · simp [WorkSafe,worker]
  · rename_i worker
    obtain ⟨job,busy,executed⟩ := Option.bind_eq_some_iff.mp moved
    obtain ⟨system,stepped,same⟩ := Option.bind_eq_some_iff.mp executed
    cases same
    obtain ⟨jobs,idle,queue⟩ := execute_taken stepped busy
    refine ⟨work_flags flags (by simp [worker]) (by simp),⟨by simp [idle],?_,?_⟩,?_,Iff.rfl⟩
    · intro called
      dsimp only
      rw [List.append_assoc]
      apply (fifo.jobs called).trans
      exact (List.prefix_append_right_inj _).mpr jobs
    · intro called
      apply (fifo.packets called).trans
      exact (List.prefix_append_right_inj _).mpr queue
    · simp [WorkSafe,worker]
  · cases moved

theorem comm_sound (flags : Flags s) (fifo : Fifo me s) (moved : commThread cluster me s reads result = some t) :
    Flags t ∧ Fifo me t ∧ (WorkSafe t ↔ WorkSafe s) ∧ (CommSafe t ↔ CommSafe s ∧ InTime me s (.comm reads result)) := by
  have called : s.commFinished = true → s.app ≠ .running := by
    intro set app
    rw [flags.commFlag,app] at set
    cases set
  unfold commThread at moved
  split at moved
  · rename_i comm
    cases moved
    refine ⟨?_,⟨fifo.hands,fifo.jobs,fifo.packets⟩,Iff.rfl,?_⟩
    · apply comm_flags flags (by simp [comm])
      intro done
      split at done
      · assumption
      · cases done
    · by_cases set : s.commFinished = true
      · simp [CommSafe,InTime,comm,set]
      · simp [CommSafe,InTime,comm,set]
  · rename_i i comm
    split at moved
    · obtain ⟨system,stepped,same⟩ := Option.map_eq_some_iff.mp moved
      subst same
      have grew : Grew (s.system.pes me) (system.pes me) := step_grew stepped (by simp [Event.takes])
      have later := fifo.system grew
      refine ⟨comm_flags flags (by simp [comm]) (by simp),⟨later.hands,later.jobs,later.packets⟩,Iff.rfl,?_⟩
      simp [CommSafe,InTime,comm]
    · cases moved
      refine ⟨comm_flags flags (by simp [comm]) (by simp),⟨fifo.hands,fifo.jobs,fifo.packets⟩,Iff.rfl,?_⟩
      simp [CommSafe,InTime,comm]
  · rename_i comm
    cases moved
    refine ⟨?_,⟨fifo.hands,fifo.jobs,fifo.packets⟩,Iff.rfl,?_⟩
    · apply comm_flags flags (by simp [comm])
      intro done
      split at done <;> cases done
    · by_cases empty : (s.system.pes me).queue.queue = []
      · -- The queue was emptied before the flag is tested.
        have enough : s.commFinished = true → s.duePackets.length ≤ s.freed.length := by
          intro set
          have due := (fifo.packets (called set)).length_le
          rw [empty,List.append_nil,List.length_map] at due
          exact due
        simp only [CommSafe,InTime,comm,empty,if_true,reduceCtorEq,or_false,true_implies,or_self,false_implies,
          implies_true,and_true]
        exact ⟨And.left,fun whole => ⟨whole,enough⟩⟩
      · simp [CommSafe,InTime,comm,empty]
  · rename_i comm
    split at moved
    · cases moved
    · rename_i entry rest front
      obtain ⟨system,stepped,same⟩ := Option.map_eq_some_iff.mp moved
      subst same
      obtain ⟨taken,before,jobs,busy⟩ := send_taken stepped
      rw [front] at before
      obtain ⟨rfl,rfl⟩ := List.cons_eq_cons.mp before
      refine ⟨comm_flags flags (by simp [comm]) (by simp),⟨?_,?_,?_⟩,Iff.rfl,?_⟩
      · dsimp only
        rw [busy]
        exact fifo.hands
      · dsimp only
        rw [jobs]
        exact fifo.jobs
      · intro called
        have due := fifo.packets called
        rw [front] at due
        simpa using due
      · have timely : InTime me s (.comm reads result) ↔
            (s.app = .running ∨ s.freed.length < s.duePackets.length → Written (entry,result)) := by
          simp [InTime,comm,front,Written]
        rw [timely]
        simp only [CommSafe,comm,reduceCtorEq,or_self,false_implies,implies_true,and_true]
        by_cases running : s.app = .running
        · simp [running,or_imp,forall_and]
        · by_cases due : s.freed.length < s.duePackets.length
          · have first : s.freed.take s.duePackets.length = s.freed := List.take_of_length_le (Nat.le_of_lt due)
            have both : (s.freed ++ [(entry,result)]).take s.duePackets.length = s.freed ++ [(entry,result)] := by
              apply List.take_of_length_le
              rw [List.length_append]
              exact due
            rw [if_neg running,if_neg running,first,both]
            simp [due,or_imp,forall_and]
          · have first : (s.freed ++ [(entry,result)]).take s.duePackets.length = s.freed.take s.duePackets.length :=
              List.take_append_of_le_length (Nat.le_of_not_lt due)
            rw [if_neg running,if_neg running,first]
            simp [running,due]
  · cases moved

theorem finalize_safe (flags : Flags s) (moved : commFinalize me s survives = some t) :
    (WorkSafe t ∧ CommSafe t) ↔ (WorkSafe s ∧ CommSafe s) ∧ InTime me s (.finalize survives) := by
  have workFlag := flags.workFlag
  have commFlag := flags.commFlag
  unfold commFinalize at moved
  split at moved
  · rename_i app
    split at moved
    · cases moved
      rw [app] at workFlag commFlag
      have all : s.freed.take (s.freed.map Prod.fst ++ (s.system.pes me).queue.queue).length = s.freed := by
        apply List.take_of_length_le
        simp
      simp only [WorkSafe,CommSafe,InTime,app,workFlag,commFlag,AppPc.workSet,AppPc.commSet,AppPc.stops,all,
        reduceCtorEq,decide_false,Bool.or_self,Bool.false_eq_true,false_implies,if_true,if_false,and_true,true_and]
    · cases moved
  · rename_i app
    cases moved
    rw [app] at workFlag commFlag
    have unfinished : s.worker ≠ .done := by
      intro done
      exact absurd (flags.workDone done) (by simp [workFlag,AppPc.workSet])
    simp [WorkSafe,CommSafe,InTime,app,workFlag,commFlag,AppPc.workSet,AppPc.commSet,unfinished,and_comm]
  · rename_i app
    split at moved
    · cases moved
      rw [app] at commFlag
      simp [WorkSafe,CommSafe,InTime,app,commFlag,AppPc.commSet]
    · cases moved
  · rename_i app
    cases moved
    rw [app] at commFlag
    have unfinished : s.comm ≠ .done := by
      intro done
      exact absurd (flags.commDone done) (by simp [commFlag,AppPc.commSet,AppPc.stops])
    simp [WorkSafe,CommSafe,InTime,app,commFlag,AppPc.commSet,AppPc.stops,unfinished,and_assoc]
  · rename_i app
    split at moved
    · cases moved
      simp [WorkSafe,CommSafe,InTime,app]
    · cases moved
  · rename_i app
    cases moved
    simp [WorkSafe,CommSafe,InTime,app]
  · rename_i app
    cases moved
    have apart : (if survives = true then AppPc.returned else .aborted) ≠ .running := by cases survives <;> exact AppPc.noConfusion
    simp [WorkSafe,CommSafe,InTime,app,apart]
  · cases moved
  · cases moved

theorem system_sound {system : System} (flags : Flags s) (fifo : Fifo me s)
    (grew : Grew (s.system.pes me) (system.pes me)) : Flags {s with system := system} ∧ Fifo me {s with system := system} :=
  ⟨⟨flags.workFlag,flags.commFlag,flags.workDone,flags.commDone,flags.workJoined,flags.commJoined⟩,fifo.system grew⟩

theorem step_flags (flags : Flags s) (fifo : Fifo me s) (moved : s.step cluster me event = some t) :
    (Flags t ∧ Fifo me t) ∧ ((WorkSafe t ∧ CommSafe t) ↔ (WorkSafe s ∧ CommSafe s) ∧ InTime me s event) := by
  cases event with
  | other event =>
    simp only [Process.step] at moved
    split at moved
    · rename_i apart
      obtain ⟨system,stepped,same⟩ := Option.map_eq_some_iff.mp moved
      subst same
      refine ⟨system_sound flags fifo ?_,(and_iff_left trivial).symm⟩
      apply step_grew stepped
      intro takes
      exact apart (event.takes_own takes).1
    · cases moved
  | call event =>
    simp only [Process.step] at moved
    split at moved
    · rename_i allowed
      obtain ⟨system,stepped,same⟩ := Option.map_eq_some_iff.mp moved
      subst same
      refine ⟨system_sound flags fifo ?_,(and_iff_left trivial).symm⟩
      apply step_grew stepped
      intro takes
      have called := allowed.2.1
      rw [(event.takes_own takes).2] at called
      cases called
    · cases moved
  | finalize survives => exact ⟨⟨finalize_flags flags moved,finalize_fifo fifo moved⟩,finalize_safe flags moved⟩
  | work contents prior =>
    obtain ⟨flags',fifo',work,comm⟩ := work_sound flags fifo moved
    refine ⟨⟨flags',fifo'⟩,?_⟩
    rw [work,comm]
    exact (and_iff_left trivial).symm
  | comm reads result =>
    obtain ⟨flags',fifo',work,comm⟩ := comm_sound flags fifo moved
    refine ⟨⟨flags',fifo'⟩,?_⟩
    rw [work,comm,and_assoc]

theorem stopped_complete (flags : Flags s) (fifo : Fifo me s) (stops : s.app.stops = true) :
    Complete s ↔ WorkSafe s ∧ CommSafe s := by
  have worker : s.worker = .done := flags.workJoined (by simp [AppPc.workJoined,AppPc.commSet,stops])
  have comm : s.comm = .done := flags.commJoined stops
  have workSet : s.workFinished = true := flags.workDone worker
  have commSet : s.commFinished = true := flags.commDone comm
  have running : s.app ≠ .running := by
    intro running
    rw [running] at stops
    cases stops
  have jobs := fifo.jobs running
  have packets := fifo.packets running
  simp only [WorkSafe,CommSafe,worker,comm,workSet,commSet,if_neg running,or_true,if_true,Nat.add_zero,true_implies]
  constructor
  · intro complete
    have whole := List.prefix_iff_eq_take.mp complete.packets
    rw [List.length_map] at whole
    have enough := complete.packets.length_le
    rw [List.length_map] at enough
    refine ⟨complete.jobs.length_le,?_,enough⟩
    intro record member
    rw [← whole] at member
    obtain ⟨entry,_,same⟩ := List.mem_map.mp member
    subst same
    rfl
  · intro ⟨executed,written,freed⟩
    refine ⟨List.prefix_of_prefix_length_le jobs (List.prefix_append _ _) executed,?_⟩
    have first : s.duePackets <+: s.freed.map Prod.fst := by
      apply List.prefix_of_prefix_length_le packets (List.prefix_append _ _)
      rw [List.length_map]
      exact freed
    have due : s.duePackets = (s.freed.take s.duePackets.length).map Prod.fst := by
      rw [List.map_take]
      exact List.prefix_iff_eq_take.mp first
    apply List.prefix_iff_eq_take.mpr
    rw [List.length_map]
    calc
      s.duePackets.map (fun entry => (entry,some entry.2.bytes.length))
        = ((s.freed.take s.duePackets.length).map Prod.fst).map (fun entry => (entry,some entry.2.bytes.length)) :=
          congrArg _ due
      _ = (s.freed.take s.duePackets.length).map id := by
          rw [List.map_map]
          apply List.map_congr_left
          intro record member
          have whole : record.2 = some record.1.2.bytes.length := written record member
          simp only [Function.comp_apply,id_eq]
          rw [← whole]
      _ = s.freed.take s.duePackets.length := List.map_id _

theorem start_flags (me : Nat) : Flags Process.start ∧ Fifo me Process.start :=
  ⟨⟨rfl,rfl,by simp [Process.start],by simp [Process.start],
      by simp [Process.start,AppPc.workJoined,AppPc.commSet,AppPc.stops],by simp [Process.start,AppPc.stops]⟩,
    ⟨by simp [Process.start,System.start,Pe.start],fun called => False.elim (called rfl),fun called => False.elim (called rfl)⟩⟩

-- Once both threads are joined, and to the end of comm_finalize, all that was put before it
-- was called is executed and written, if and only if each thread was told to stop in time
-- and no write fell short.
theorem finalize_completes_iff (cluster : Cluster) (me : Nat) (events : List ProcessEvent)
    (ran : (processes cluster me).run Process.start events = some s) (stops : s.app.stops = true) :
    Complete s ↔ (processes cluster me).Meets (InTime me) Process.start events := by
  have kept : ∀ s event t, Flags s ∧ Fifo me s → (processes cluster me).step s event = some t → Flags t ∧ Fifo me t := by
    intro s event t ⟨flags,fifo⟩ moved
    exact (step_flags flags fifo moved).1
  have tells : ∀ s event t, Flags s ∧ Fifo me s → (processes cluster me).step s event = some t →
      ((WorkSafe t ∧ CommSafe t) ↔ (WorkSafe s ∧ CommSafe s) ∧ InTime me s event) := by
    intro s event t ⟨flags,fifo⟩ moved
    exact (step_flags flags fifo moved).2
  have start : WorkSafe Process.start ∧ CommSafe Process.start := by
    simp [WorkSafe,CommSafe,Process.start]
  obtain ⟨flags,fifo⟩ := Guarded.Machine.run_invariant kept (start_flags me) ran
  rw [stopped_complete flags fifo stops]
  exact (Guarded.Machine.run_iff kept tells (start_flags me) ran).trans (and_iff_right start)

-- PE 0 puts into PE 1's heap, and finalizes before its communication thread has written it.
theorem finalize_completes_iff_two : ∃ s, (processes pairCluster 0).run Process.start
    [.call (.put 0 64 ⟨[7,8,9],by decide⟩ 1 5),.comm ⟨none,none,[]⟩ none,.comm ⟨none,none,[]⟩ none,
      .comm ⟨none,none,[]⟩ none,.finalize true,.comm ⟨none,none,[]⟩ none,.comm ⟨none,none,[]⟩ (some 32),.finalize true,
      .work [] 0,.finalize true,.comm ⟨none,none,[]⟩ none,.finalize true,.comm ⟨none,none,[]⟩ none,.finalize true,
      .finalize true,.finalize true] = some s ∧ s.app = .returned ∧ Complete s := by
  let events : List ProcessEvent := [.call (.put 0 64 ⟨[7,8,9],by decide⟩ 1 5),.comm ⟨none,none,[]⟩ none,
    .comm ⟨none,none,[]⟩ none,.comm ⟨none,none,[]⟩ none,.finalize true,.comm ⟨none,none,[]⟩ none,
    .comm ⟨none,none,[]⟩ (some 32),.finalize true,.work [] 0,.finalize true,.comm ⟨none,none,[]⟩ none,.finalize true,
    .comm ⟨none,none,[]⟩ none,.finalize true,.finalize true,.finalize true]
  have final : ((processes pairCluster 0).run Process.start events).map (·.app) = some .returned := by decide +kernel
  obtain ⟨s,ran,returned⟩ := Option.map_eq_some_iff.mp final
  have stops : s.app.stops = true := by rw [returned]; rfl
  exact ⟨s,ran,returned,(finalize_completes_iff pairCluster 0 events ran stops).mpr (by decide +kernel)⟩

-- The worker stands at its test when the flag is set, and leaves the job in its queue: no
-- thread is left that could execute it at the second join.
theorem job_left_behind :
    ¬ ∀ (cluster : Cluster) (me : Nat) (events : List ProcessEvent) (s : Process),
      (processes cluster me).run Process.start events = some s → s.app.stops = true → Complete s := by
  intro claim
  let events : List ProcessEvent := [.call (.putNbi 0 64 3 0),.finalize true,.finalize true,.work [] 0,.finalize true,
    .finalize true,.comm ⟨none,none,[]⟩ none,.finalize true]
  have final : ((processes loneCluster 0).run Process.start events).map
      (fun s => (s.app,s.dueJobs.length,s.executed.length)) = some (.stopped,1,0) := by decide +kernel
  obtain ⟨s,ran,same⟩ := Option.map_eq_some_iff.mp final
  obtain ⟨stopped,lengths⟩ := Prod.mk.inj same
  obtain ⟨due,executed⟩ := Prod.mk.inj lengths
  have short := (claim loneCluster 0 events s ran (by rw [stopped]; rfl)).jobs.length_le
  rw [due,executed] at short
  exact absurd short (by decide)

end OpenShmem
