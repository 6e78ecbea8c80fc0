import OpenShmem.Comm.Barrier
import OpenShmem.Comm.Connections
import OpenShmem.Comm.Receive
import OpenShmem.Comm.Send
import OpenShmem.Library.ByteMemory

namespace OpenShmem
open ByteMemory (memcpy)

-- The job with the offset of __pSync in the symmetric heap, which all PEs agree on, and
-- what rte_my_local_pe answers on each PE.
structure Cluster extends Job where
  pSync : Nat
  roomy : pSync + 4 * n < 2^64
  localRank : Nat → Nat

-- Whose heap __shared_memory[index] is: that of the PE on the node which made the object of
-- this local rank.
def Cluster.shared (cluster : Cluster) (me index : Nat) : Option Nat :=
  (List.range cluster.n).find? fun pe => cluster.node pe = cluster.node me ∧ cluster.localRank pe = index

-- Where __sockets_cmd[index] leads; the entry for a clashing PE was never set.
def Cluster.socket (cluster : Cluster) (me index : Nat) : Option Nat :=
  (cluster.remotes me)[index]?.filter fun pe => ¬ Clash me pe

-- What the runtime promises, and what the ranks of the PEs must be for comm_remote_wireup
-- to have connected all of them.
structure Cluster.WiredUp (cluster : Cluster) : Prop where
  ranked : ∀ me, ∀ host ∈ cluster.hosts me, host.hostname = cluster.node me → ∀ pe ∈ host.pes,
    host.pes.idxOf pe = cluster.localRank pe
  distinct : ∀ p < cluster.n, ∀ q < cluster.n, cluster.node p = cluster.node q → cluster.localRank p = cluster.localRank q → p = q
  connected : ∀ a b, Peers cluster.toJob a b → ¬ Clash a b

-- What the three threads of one PE share: the application thread's place in the barrier,
-- the work queue with the job that the worker took off, and the communication thread's
-- send queue and packet buffer.
structure Pe where
  pc : Pc
  calls : Nat
  returns : Nat
  workQueue : List WorkJob
  busy : Option WorkJob
  queue : SendQueue
  packetBuf : List UInt8

-- The jobs that are not executed yet.
def Pe.jobs (pe : Pe) : List WorkJob := pe.busy.toList ++ pe.workQueue

-- Ghosts: a call of comm_remote_put as it enters the send queue, a write into a heap by a
-- PE on behalf of another, and a put that an application issued, with its bytes if the
-- call reads them. `round` is how often the acting PE had called comm_barrier_all.
structure RemotePut where
  origin : Nat
  target : Nat
  dest : BitVec 64
  bytes : List UInt8
  round : Nat
deriving DecidableEq, Repr

structure Update where
  actor : Nat
  origin : Nat
  heap : Nat
  dest : BitVec 64
  bytes : List UInt8
  round : Nat
deriving DecidableEq, Repr

structure Issue where
  origin : Nat
  target : Nat
  dest : BitVec 64
  size : Nat
  src : JobSource
  round : Nat
deriving DecidableEq, Repr

-- `streams i j` is what i wrote to its socket for j and j did not read yet.
structure System where
  pes : Nat → Pe
  streams : Nat → Nat → List UInt8
  heaps : Nat → Nat → UInt8
  entered : List RemotePut
  applied : List Update
  issued : List Issue

-- An int in a heap, and the bytes of one.
def readInt (heap : Nat → UInt8) (address : Nat) : BitVec 32 :=
  BitVec.ofNat 32 (LittleEndian.value (ByteMemory.read heap address 4))

def intBytes (value : BitVec 32) : Source := ⟨LittleEndian.bytes 4 value.toNat,by simp⟩

def Cluster.slotOffset (cluster : Cluster) (slot : Nat) : BitVec 64 := BitVec.ofNat 64 (cluster.pSync + 4 * slot)

def System.setPe (s : System) (me : Nat) (pe : Pe) : System := {s with pes := Function.update s.pes me pe}

def System.issue (s : System) (issue : Issue) : System := {s with issued := s.issued ++ [issue]}

-- The memcpy of comm_local_put into the heap of a PE on the node, or a store of the PE itself.
def System.write (s : System) (actor origin heap : Nat) (dest : BitVec 64) (bytes : List UInt8) : System :=
  {s with
    heaps := Function.update s.heaps heap (memcpy (s.heaps heap) dest.toNat bytes)
    applied := s.applied ++ [⟨actor,origin,heap,dest,bytes,(s.pes actor).calls⟩]}

-- comm_remote_put
def System.enqueue (s : System) (me pe : Nat) (dest : BitVec 64) (src : Source) (prior : BitVec 64) : System :=
  {s.setPe me {s.pes me with queue :=
      {(s.pes me).queue with queue := (s.pes me).queue.queue ++ [(pe,putPacket me dest src prior)]}} with
    entered := s.entered ++ [⟨me,pe,dest,src.bytes,(s.pes me).calls⟩]}

def System.commPut (cluster : Cluster) (s : System) (me origin : Nat) (dest : BitVec 64) (src : Source) (pe : Nat)
    (prior : BitVec 64) : Option System := do
  let entry ← cluster.localityMap me pe
  match entry.type with
  | .near => do
    let heap ← cluster.shared me entry.index
    s.write me origin heap dest src.bytes
  | .remote => s.enqueue me pe dest src prior

section Put
variable {cluster : Cluster} {s t : System} {me pe : Nat}

@[simp] theorem pes_setPe (s : System) (me : Nat) (entry : Pe) :
    (s.setPe me entry).pes = Function.update s.pes me entry := rfl
@[simp] theorem streams_setPe (s : System) (me : Nat) (entry : Pe) : (s.setPe me entry).streams = s.streams := rfl

theorem shared_eq (wired : cluster.WiredUp) (near : cluster.node me = cluster.node pe)
    (found : cluster.localityMap me pe = some entry) : cluster.shared me entry.index = some pe := by
  have inside := Job.map_inside found
  obtain ⟨again,also,host,there,name,member,index⟩ := Job.near_index inside near
  rw [found] at also
  cases also
  have rank := index.trans (wired.ranked me host there name pe member)
  unfold Cluster.shared
  cases first : (List.range cluster.n).find? _ with
  | none =>
    have other := List.find?_eq_none.mp first pe (List.mem_range.mpr inside)
    exact False.elim (other (by simp [near,rank]))
  | some q =>
    have here := List.find?_some first
    simp only [Bool.decide_and,Bool.and_eq_true,decide_eq_true_eq] at here
    have within := List.mem_range.mp (List.mem_of_find?_eq_some first)
    rw [wired.distinct q within pe inside (here.1.trans near) (here.2.trans rank)]

theorem socket_peer (leads : cluster.socket me index = some pe) : (cluster.remotes me)[index]? = some pe :=
  (Option.filter_eq_some_iff.mp leads).1

theorem socket_eq (wired : cluster.WiredUp) (peers : Peers cluster.toJob me pe) (listed : (cluster.remotes me)[index]? = some pe) :
    cluster.socket me index = some pe :=
  Option.filter_eq_some_iff.mpr ⟨listed,by simpa using wired.connected me pe peers⟩

-- Every completed comm_remote_wireup leaves these sockets.
theorem sockets_wired {events : List WireEvent} {w : Wiring} (ran : (wirings cluster.toJob).run (Wiring.start cluster.toJob) events = some w)
    (done : w.Done cluster.toJob) (inside : me < cluster.n) (index : Nat) : w.sockets me index = cluster.socket me index := by
  have sound : w.Sound cluster.toJob :=
    Guarded.Machine.run_invariant (fun _ _ _ => step_sound) (start_sound cluster.toJob) ran
  apply Option.ext
  intro pe
  constructor
  · intro set
    obtain ⟨rfl,linked⟩ := sound.filled me index pe set
    have peers : Peers cluster.toJob me pe := linked.elim (sound.peers _) fun back => (sound.peers _ back).symm
    have member : pe ∈ cluster.remotes me := Job.mem_remotes.mpr ⟨peers.2.1,peers.2.2⟩
    refine Option.filter_eq_some_iff.mpr ⟨?_,by simpa using (sound.leads_iff done peers).mp set⟩
    rw [List.getElem?_eq_getElem (List.idxOf_lt_length_of_mem member),List.getElem_idxOf]
  · intro leads
    obtain ⟨listed,apart⟩ := Option.filter_eq_some_iff.mp leads
    obtain ⟨below,here⟩ := List.getElem?_eq_some_iff.mp listed
    obtain ⟨there,other⟩ := Job.mem_remotes.mp (List.mem_of_getElem? listed)
    have set := (sound.leads_iff done ⟨inside,there,other⟩).mpr (by simpa using apart)
    unfold Leads at set
    rw [← here,(cluster.remotes_nodup me).idxOf_getElem index below,here] at set
    exact set

-- The two ways that a put goes, into some heap of the node or into the queue.
theorem commPut_moves (ran : s.commPut cluster me origin dest src pe prior = some t) : pe < cluster.n ∧
    ((cluster.node me = cluster.node pe ∧ ∃ entry heap, cluster.localityMap me pe = some entry ∧
      cluster.shared me entry.index = some heap ∧ t = s.write me origin heap dest src.bytes) ∨
    (cluster.node me ≠ cluster.node pe ∧ t = s.enqueue me pe dest src prior)) := by
  obtain ⟨entry,found,moved⟩ := Option.bind_eq_some_iff.mp ran
  have inside := Job.map_inside found
  obtain ⟨same,also,near,_⟩ := cluster.map_eq me inside
  rw [found] at also
  cases also
  refine ⟨inside,?_⟩
  cases type : entry.type with
  | near =>
    rw [type] at moved
    obtain ⟨heap,shown,made⟩ := Option.bind_eq_some_iff.mp moved
    cases made
    exact Or.inl ⟨near.mp type,entry,heap,found,shown,rfl⟩
  | remote =>
    rw [type] at moved
    cases moved
    refine Or.inr ⟨?_,rfl⟩
    intro shared
    have conflict := near.mpr shared
    rw [type] at conflict
    cases conflict

-- The heap is that of the PE the put is for.
theorem commPut_cases (wired : cluster.WiredUp) (ran : s.commPut cluster me origin dest src pe prior = some t) : pe < cluster.n ∧
    ((cluster.node me = cluster.node pe ∧ t = s.write me origin pe dest src.bytes) ∨
    (cluster.node me ≠ cluster.node pe ∧ t = s.enqueue me pe dest src prior)) := by
  obtain ⟨inside,⟨near,entry,heap,found,shown,rfl⟩ | away⟩ := commPut_moves ran
  · rw [shared_eq wired near found] at shown
    cases shown
    exact ⟨inside,Or.inl ⟨near,rfl⟩⟩
  · exact ⟨inside,Or.inr away⟩

end Put

-- The steps of the three threads of each PE. `contents` is what the caller's memory holds
-- when the worker reads it, and `prior` what malloc returned for a packet.
inductive Event where
  | put (me : Nat) (dest : BitVec 64) (src : Source) (pe : Nat) (prior : BitVec 64)
  | putNbi (me : Nat) (dest : BitVec 64) (size : BitVec 64) (pe : Nat)
  | sync (me : Nat) (prior : BitVec 64)
  | dequeue (me : Nat)
  | execute (me : Nat) (contents : List UInt8) (prior : BitVec 64)
  | send (me : Nat) (result : Option Nat)
  | receive (me index : Nat) (reads : Reads)
deriving DecidableEq

def Event.me : Event → Nat
  | .put me _ _ _ _ => me
  | .putNbi me _ _ _ => me
  | .sync me _ => me
  | .dequeue me => me
  | .execute me _ _ => me
  | .send me _ => me
  | .receive me _ _ => me

-- What a step of comm_barrier_all does outside of its own thread.
def System.perform (cluster : Cluster) (s : System) (me : Nat) (prior : BitVec 64) : Effect → Option System
  | .nothing => some s
  | .call => some (s.setPe me {s.pes me with calls := (s.pes me).calls + 1})
  | .ret => some (s.setPe me {s.pes me with returns := (s.pes me).returns + 1})
  | .zero slot => some (s.write me me me (cluster.slotOffset slot) (intBytes 0).bytes)
  | .signal pe slot => s.commPut cluster me me (cluster.slotOffset slot) (intBytes 1) pe prior

def System.slots (cluster : Cluster) (s : System) (me slot : Nat) : BitVec 32 :=
  readInt (s.heaps me) (cluster.pSync + 4 * slot)

-- What a job's src points at when the job is executed.
def JobSource.read (contents : List UInt8) : JobSource → List UInt8
  | .buffer bytes => bytes
  | .caller => contents

-- __work_thread_execute; the branch of HANDLER_GET is commented out.
def System.execute (cluster : Cluster) (s : System) (me : Nat) (job : WorkJob) (contents : List UInt8)
    (prior : BitVec 64) : Option System :=
  if job.handler = handlerPut then
    if fits : (job.src.read contents).length = job.size.toNat then
      s.commPut cluster me job.originPe.toNat job.dest ⟨job.src.read contents,fits ▸ job.size.isLt⟩ job.destPe prior
    else none
  else some s

def System.move (cluster : Cluster) (s : System) : Event → Option System
  | .put me dest src pe prior =>
    if pe < cluster.n ∧ (s.pes me).pc = .outside then
      (s.issue ⟨me,pe,dest,src.bytes.length,.buffer src.bytes,(s.pes me).calls⟩).commPut cluster me me dest src pe prior
    else none
  | .putNbi me dest size pe =>
    if pe < cluster.n ∧ (s.pes me).pc = .outside then
      let job : WorkJob := ⟨handlerPut,pe,BitVec.ofNat 32 me,dest,.caller,size⟩
      some ((s.issue ⟨me,pe,dest,size.toNat,.caller,(s.pes me).calls⟩).setPe me
        {s.pes me with workQueue := (s.pes me).workQueue ++ [job]})
    else none
  | .sync me prior => do
    let (pc,effect) ← commBarrierAll cluster.n me (s.slots cluster me) (s.pes me).pc
    (s.setPe me {s.pes me with pc := pc}).perform cluster me prior effect
  | .dequeue me =>
    match (s.pes me).busy,(s.pes me).workQueue with
    | none,job :: rest => some (s.setPe me {s.pes me with busy := some job, workQueue := rest})
    | _,_ => none
  | .execute me contents prior => do
    let job ← (s.pes me).busy
    (s.setPe me {s.pes me with busy := none}).execute cluster me job contents prior
  | .send me result => do
    let (queue,index,packet) ← dequeueStamped (cluster.localityMap me) (s.pes me).queue
    let peer ← cluster.socket me index
    if Writable result packet.bytes then
      some {s.setPe me {s.pes me with queue := queue} with
        streams := setSlot s.streams me peer (s.streams me peer ++ networkSend result packet.bytes)}
    else none
  | .receive me index reads => do
    let peer ← cluster.socket me index
    let (packetBuf,stream,job) ← receiveSocket me (s.pes me).packetBuf (s.streams peer me) reads
    return {s.setPe me {s.pes me with
        packetBuf := packetBuf, workQueue := (s.pes me).workQueue ++ job.toList} with
      streams := setSlot s.streams peer me stream}

def System.step (cluster : Cluster) (s : System) (event : Event) : Option System :=
  if event.me < cluster.n then s.move cluster event else none

def Pe.start : Pe := ⟨.outside,0,0,[],none,⟨[],fun _ => 0⟩,[]⟩

def System.start : System := ⟨fun _ => .start,fun _ _ => [],fun _ _ => 0,[],[],[]⟩

def systems (cluster : Cluster) : Guarded.Machine System Event := ⟨System.step cluster⟩

def pairCluster : Cluster := {twoHosts with pSync := 0, roomy := by decide, localRank := fun _ => 0}

-- Two PEs on one node.
def closeCluster : Cluster where
  n := 2
  small := twoHosts.small
  node _ := "a"
  hosts _ := [⟨"a",[0,1]⟩]
  listed _ := by decide
  placed _ := by decide
  pSync := 0
  roomy := by decide
  localRank pe := pe

def loneCluster : Cluster := {oneHost with pSync := 0, roomy := by decide, localRank := fun _ => 0}

theorem pair_wired : pairCluster.WiredUp := by
  have ranks : ∀ host ∈ ([⟨"a",[0]⟩,⟨"b",[1]⟩] : List Host), ∀ pe ∈ host.pes, host.pes.idxOf pe = 0 := by decide
  have distinct : ∀ p < 2, ∀ q < 2, twoHosts.node p = twoHosts.node q → p = q := by decide
  refine ⟨fun _ host member _ => ranks host member,fun p below q there near _ => distinct p below q there near,?_⟩
  intro a b ⟨below,there,_⟩ clash
  change a < 2 at below
  change b < 2 at there
  have different := clash.1
  have parity := clash.2.1
  omega

theorem close_wired : closeCluster.WiredUp := by
  have ranks : ∀ host ∈ ([⟨"a",[0,1]⟩] : List Host), ∀ pe ∈ host.pes, host.pes.idxOf pe = pe := by decide
  exact ⟨fun _ host member _ => ranks host member,fun _ _ _ _ _ rank => rank,fun a b peers => absurd rfl peers.2.2⟩

theorem lone_wired : loneCluster.WiredUp := by
  have ranks : ∀ host ∈ ([⟨"a",[0]⟩] : List Host), ∀ pe ∈ host.pes, host.pes.idxOf pe = 0 := by decide
  refine ⟨fun _ host member _ => ranks host member,?_,fun a b peers => absurd rfl peers.2.2⟩
  intro p below q there _ _
  change p < 1 at below
  change q < 1 at there
  omega

end OpenShmem
