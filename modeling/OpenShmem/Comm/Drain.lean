import OpenShmem.Comm.Signals
import OpenShmem.Library.Totals

namespace OpenShmem
open Totals

-- The steps of the worker and communication threads that carry something on.
def Event.Carries : Event → Prop
  | .dequeue _ => True
  | .execute _ _ _ => True
  | .send _ _ => True
  | .receive _ _ reads => reads.header ≠ none
  | _ => False

-- A fetched job is taken off and written. A PE's own job may become a packet, whose bytes
-- are written to a socket first.
def WorkJob.load (job : WorkJob) : Nat :=
  match job.src with
  | .caller => packetSize + job.size.toNat + 3
  | .buffer _ => 2

def Packet.load (packet : Packet) : Nat := packet.bytes.length + 1

def Pe.load (pe : Pe) : Nat :=
  along WorkJob.load pe.workQueue + ((pe.busy.map fun job => job.load - 1).getD 0 +
    along (fun entry => entry.2.load) pe.queue.queue)

def System.backlog (cluster : Cluster) (s : System) : Nat :=
  total cluster.n (fun p => (s.pes p).load) + grid cluster.n fun i k => (s.streams i k).length

-- Nothing is under way between the PEs.
structure Idle (cluster : Cluster) (s : System) : Prop where
  workQueue : ∀ p < cluster.n, (s.pes p).workQueue = []
  busy : ∀ p < cluster.n, (s.pes p).busy = none
  queue : ∀ p < cluster.n, (s.pes p).queue.queue = []
  streams : ∀ i k, Peers cluster.toJob i k → s.streams i k = []

-- The buffer of a fetched job is as long as the job says.
def Buffered (s : System) : Prop :=
  ∀ p, ∀ job ∈ (s.pes p).jobs, ∀ bytes, job.src = .buffer bytes → bytes.length = job.size.toNat

def Carried (cluster : Cluster) (s : System) (event : Event) : Prop :=
  (Reliable cluster s event ∧ PayloadFound event) ∧ event.Carries

variable {cluster : Cluster} {s t : System} {me pe i k : Nat}

theorem WorkJob.load_pos (job : WorkJob) : 2 ≤ job.load := by
  unfold WorkJob.load
  split
  · exact Nat.le_add_left _ _
  · exact Nat.le_refl _

theorem backlog_setPe (inside : me < cluster.n) (entry : Pe) :
    (s.setPe me entry).backlog cluster + (s.pes me).load = s.backlog cluster + entry.load := by
  have loads := total_update (f := fun p => (s.pes p).load) (g := fun p => ((s.setPe me entry).pes p).load) inside
    fun p away => by simp [away]
  simp only [pes_setPe,Function.update_self] at loads
  unfold System.backlog
  simp only [pes_setPe,streams_setPe]
  omega

theorem backlog_write (s : System) (actor origin heap : Nat) (dest : BitVec 64) (bytes : List UInt8) :
    (s.write actor origin heap dest bytes).backlog cluster = s.backlog cluster := rfl

theorem backlog_stream (first : i < cluster.n) (second : k < cluster.n) (stream : List UInt8) :
    ({s with streams := setSlot s.streams i k stream} : System).backlog cluster + (s.streams i k).length =
      s.backlog cluster + stream.length := by
  have wires := grid_update (p := fun i k => (s.streams i k).length)
    (q := fun a b => (setSlot s.streams i k stream a b).length) first second
    (fun a away => by simp [setSlot,away]) (fun b away => by simp [setSlot,away])
  have new : setSlot s.streams i k stream i k = stream := by simp [setSlot]
  rw [new] at wires
  unfold System.backlog
  dsimp only
  omega

theorem load_queue (entry : Pe) (more : List (Nat × Packet)) :
    ({entry with queue := {entry.queue with queue := entry.queue.queue ++ more}} : Pe).load =
      entry.load + along (fun packet => packet.2.load) more := by
  simp only [Pe.load,along_append]
  omega

theorem load_workQueue (entry : Pe) (more : List WorkJob) :
    ({entry with workQueue := entry.workQueue ++ more} : Pe).load = entry.load + along WorkJob.load more := by
  simp only [Pe.load,along_append]
  omega

theorem load_dequeue {entry : Pe} (idle : entry.busy = none) (queued : entry.workQueue = job :: rest) :
    ({entry with busy := some job, workQueue := rest} : Pe).load + 1 = entry.load := by
  have positive := job.load_pos
  simp only [Pe.load,idle,queued,Option.map_some,Option.map_none,Option.getD_some,Option.getD_none,along_cons]
  omega

theorem load_send {entry : Pe} (front : entry.queue.queue = (pe,packet) :: rest) :
    ({entry with queue := ⟨rest,indices⟩} : Pe).load + (packet.bytes.length + 1) = entry.load := by
  simp only [Pe.load,Packet.load,front,along_cons]
  omega

theorem load_finish {entry : Pe} (busy : entry.busy = some job) : ({entry with busy := none} : Pe).load + (job.load - 1) = entry.load := by
  simp only [Pe.load,busy,Option.map_some,Option.map_none,Option.getD_some,Option.getD_none]
  omega

theorem backlog_enqueue (inside : me < cluster.n) (dest : BitVec 64) (src : Source) (prior : BitVec 64) :
    (s.enqueue me pe dest src prior).backlog cluster = s.backlog cluster + (packetSize + src.bytes.length + 1) := by
  have moved := backlog_setPe (s := s) inside {s.pes me with queue :=
    {(s.pes me).queue with queue := (s.pes me).queue.queue ++ [(pe,putPacket me dest src prior)]}}
  have packet : (putPacket me dest src prior).load = packetSize + src.bytes.length + 1 := by
    simp [Packet.load,putPacket]
  rw [load_queue,along_cons,along_nil,packet] at moved
  exact Nat.add_right_cancel (moved.trans (by omega))

-- A put for a PE's own threads costs a packet at most.
theorem backlog_commPut (inside : me < cluster.n) (ran : s.commPut cluster me me dest src pe prior = some t) :
    t.backlog cluster ≤ s.backlog cluster + (packetSize + src.bytes.length + 1) := by
  obtain ⟨_,⟨_,_,_,_,_,rfl⟩ | ⟨_,rfl⟩⟩ := commPut_moves ran
  · rw [backlog_write]
    exact Nat.le_add_right _ _
  · exact Nat.le_of_eq (backlog_enqueue inside dest src prior)

theorem receiveSocket_job (full : reads.header = some packetSize)
    (ran : receiveSocket me packetBuf stream reads = some (buffer,rest,job)) : job ≠ none := by
  intro absent
  subst absent
  unfold receiveSocket at ran
  split at ran
  · cases ran
  · rw [full] at ran
    dsimp only at ran
    rw [if_neg (by decide),if_neg (by simp)] at ran
    split at ran <;> cases ran

-- A round of the receiver that reads a header takes the packet off the socket.
theorem receive_carries (inside : me < cluster.n) (carried : Carried cluster s (.receive me index reads))
    (moved : s.move cluster (.receive me index reads) = some t) : ∃ peer buffer, Peers cluster.toJob peer me ∧
      ∀ packets : List Packet, s.streams peer me = packets.flatMap Packet.bytes →
        ∃ packet rest, packets = packet :: rest ∧
          t = {s.setPe me {s.pes me with
              packetBuf := buffer, workQueue := (s.pes me).workQueue ++ [packet.job me]} with
            streams := setSlot s.streams peer me (rest.flatMap Packet.bytes)} := by
  obtain ⟨⟨reliable,found⟩,carries⟩ := carried
  obtain ⟨peer,led,received⟩ := Option.bind_eq_some_iff.mp moved
  obtain ⟨⟨buffer,stream,job⟩,ran,made⟩ := Option.bind_eq_some_iff.mp received
  cases made
  have peers : Peers cluster.toJob me peer := ⟨inside,Job.mem_remotes.mp (List.mem_of_getElem? (socket_peer led))⟩
  obtain ⟨header,payload⟩ := reliable peer led
  have full := header.resolve_left carries
  have whole : WholeReads (s.streams peer me) reads := Or.inr ⟨full,payload.resolve_left (found.resolve_left carries)⟩
  refine ⟨peer,buffer,peers.symm,?_⟩
  intro packets framed
  rcases receive_whole framed whole ran with ⟨absent,_⟩ | ⟨packet,rest,split,rfl,rfl⟩
  · exact absurd absent (receiveSocket_job full ran)
  · exact ⟨packet,rest,split,rfl⟩

-- Each of these steps lowers the backlog.
theorem carried_backlog (piped : Piped cluster s) (carried : Carried cluster s event) (moved : s.step cluster event = some t) :
    t.backlog cluster < s.backlog cluster := by
  unfold System.step at moved
  split at moved
  · rename_i inside
    cases event with
    | dequeue me =>
      have here : me < cluster.n := inside
      simp only [System.move] at moved
      split at moved
      · rename_i job rest idle queued
        cases moved
        have change := backlog_setPe (s := s) here {s.pes me with busy := some job, workQueue := rest}
        have load := load_dequeue idle queued
        dsimp only at change ⊢
        omega
      · cases moved
    | execute me contents prior =>
      have here : me < cluster.n := inside
      obtain ⟨job,busy,ran⟩ := Option.bind_eq_some_iff.mp moved
      have change := backlog_setPe (s := s) here {s.pes me with busy := none}
      have load := load_finish busy
      have positive := job.load_pos
      dsimp only at change
      rcases execute_cases piped here busy ran with ⟨own,src,sized,put⟩ | ⟨i,bytes,peers,made,rfl⟩
      · have grown := backlog_commPut here put
        have cost : job.load = packetSize + job.size.toNat + 3 := by
          unfold WorkJob.load
          rw [own.2.2.1]
        dsimp only at grown
        omega
      · rw [backlog_write]
        dsimp only
        omega
    | send me result =>
      have here : me < cluster.n := inside
      obtain ⟨pe,packet,rest,stamp,indices,front,peers,rfl⟩ := send_cases piped here carried.1.1 moved
      have change := backlog_setPe (s := s) here {s.pes me with queue := ⟨rest,indices⟩}
      have wires := backlog_stream (s := s.setPe me {s.pes me with queue := ⟨rest,indices⟩}) peers.1 peers.2.1
        (s.streams me pe ++ (packet.stamp stamp).bytes)
      have load : Pe.load {s.pes me with queue := ⟨rest,indices⟩} + (packet.bytes.length + 1) = (s.pes me).load := load_send front
      rw [streams_setPe,List.length_append,Packet.length_stamp] at wires
      dsimp only [streams_setPe] at change wires load ⊢
      omega
    | receive me index reads =>
      have here : me < cluster.n := inside
      obtain ⟨peer,buffer,peers,taken⟩ := receive_carries here carried moved
      obtain ⟨packets,streams,_,_⟩ := piped.flow peer me peers
      obtain ⟨packet,rest,rfl,rfl⟩ := taken packets streams
      have change := backlog_setPe (s := s) here {s.pes me with
        packetBuf := buffer, workQueue := (s.pes me).workQueue ++ [packet.job me]}
      have wires := backlog_stream (s := s.setPe me {s.pes me with
        packetBuf := buffer, workQueue := (s.pes me).workQueue ++ [packet.job me]}) peers.1 peers.2.1 (rest.flatMap Packet.bytes)
      have load : Pe.load {s.pes me with packetBuf := buffer, workQueue := (s.pes me).workQueue ++ [packet.job me]} =
          (s.pes me).load + 2 := load_workQueue (s.pes me) [packet.job me]
      have size : packetSize = 29 := rfl
      rw [streams_setPe,streams,List.flatMap_cons,List.length_append,Packet.length_bytes] at wires
      dsimp only [streams_setPe] at change wires load ⊢
      omega
    | _ => cases carried.2
  · cases moved

-- What a step adds to a PE's jobs: one that it made itself, or a packet that it received.
theorem step_jobs (piped : Piped cluster s) (reliable : Reliable cluster s event) (found : PayloadFound event)
    (moved : s.step cluster event = some t) :
    ∀ p, ∀ job ∈ (t.pes p).jobs, job ∈ (s.pes p).jobs ∨ job.src = .caller ∨ ∃ packet : Packet, job = packet.job p := by
  unfold System.step at moved
  split at moved
  · rename_i inside
    intro p job member
    cases event with
    | put me dest src pe prior =>
      simp only [System.move] at moved
      split at moved
      · rw [(commPut_thread moved p).2.2.2] at member
        exact Or.inl member
      · cases moved
    | putNbi me dest size pe =>
      simp only [System.move] at moved
      split at moved
      · cases moved
        by_cases here : p = me
        · subst p
          simp only [pes_setPe,Function.update_self,Pe.jobs,← List.append_assoc] at member
          rcases List.mem_append.mp member with old | new
          · exact Or.inl old
          · cases List.mem_singleton.mp new
            exact Or.inr (Or.inl rfl)
        · simp only [pes_setPe,Function.update_of_ne here] at member
          exact Or.inl member
      · cases moved
    | sync me prior =>
      obtain ⟨⟨pc,effect⟩,_,performed⟩ := Option.bind_eq_some_iff.mp moved
      rw [(perform_thread performed p).2.2.2] at member
      refine Or.inl ?_
      by_cases here : p = me
      · subst p
        simpa [Pe.jobs] using member
      · simpa [here] using member
    | dequeue me =>
      simp only [System.move] at moved
      split at moved
      · rename_i first rest idle queued
        cases moved
        refine Or.inl ?_
        by_cases here : p = me
        · subst p
          simpa [Pe.jobs,idle,queued] using member
        · simpa [here] using member
      · cases moved
    | execute me contents prior =>
      obtain ⟨first,busy,ran⟩ := Option.bind_eq_some_iff.mp moved
      have left : (t.pes p).jobs = ((s.setPe me {s.pes me with busy := none}).pes p).jobs := by
        rcases execute_cases piped inside busy ran with ⟨_,_,_,put⟩ | ⟨_,_,_,_,rfl⟩
        · exact (commPut_thread put p).2.2.2
        · rfl
      rw [left] at member
      refine Or.inl ?_
      by_cases here : p = me
      · subst p
        rw [jobs_busy busy]
        exact List.mem_cons_of_mem _ (by simpa using member)
      · simpa [here] using member
    | send me result =>
      have own : me < cluster.n := inside
      obtain ⟨pe,packet,rest,stamp,indices,front,peers,rfl⟩ := send_cases piped own reliable moved
      refine Or.inl ?_
      by_cases here : p = me
      · subst p
        simpa [Pe.jobs] using member
      · simpa [here] using member
    | receive me index reads =>
      have own : me < cluster.n := inside
      obtain ⟨peer,buffer,peers,cases⟩ := receive_cases own reliable found moved
      obtain ⟨packets,streams,_,_⟩ := piped.flow peer me peers
      by_cases here : p = me
      · subst p
        rcases cases packets streams with rfl | ⟨packet,rest,rfl,rfl⟩
        · exact Or.inl (by simpa [Pe.jobs] using member)
        · simp only [pes_setPe,Function.update_self,Pe.jobs,← List.append_assoc] at member
          rcases List.mem_append.mp member with old | new
          · exact Or.inl old
          · exact Or.inr (Or.inr ⟨packet,List.mem_singleton.mp new⟩)
      · rcases cases packets streams with rfl | ⟨packet,rest,rfl,rfl⟩
        · exact Or.inl (by simpa [here] using member)
        · exact Or.inl (by simpa [here] using member)
  · cases moved

theorem step_sized (piped : Piped cluster s) (sized : Buffered s) (reliable : Reliable cluster s event) (found : PayloadFound event)
    (moved : s.step cluster event = some t) : Buffered t := by
  intro p job member bytes buffer
  rcases step_jobs piped reliable found moved p job member with old | own | ⟨packet,rfl⟩
  · exact sized p job old bytes buffer
  · rw [own] at buffer
    cases buffer
  · cases buffer
    exact packet.sized

theorem commPut_enabled (wired : cluster.WiredUp) (origin : Nat) (dest : BitVec 64) (src : Source) (prior : BitVec 64)
    (there : pe < cluster.n) : ∃ t, s.commPut cluster me origin dest src pe prior = some t := by
  obtain ⟨entry,found,near,_⟩ := cluster.map_eq me there
  unfold System.commPut
  rw [found,Option.bind_eq_bind,Option.bind_some]
  cases type : entry.type with
  | near =>
    dsimp only
    rw [shared_eq wired (near.mp type) found]
    exact ⟨_,rfl⟩
  | remote => exact ⟨_,rfl⟩

theorem execute_enabled (piped : Piped cluster s) (sized : Buffered s) (inside : me < cluster.n)
    (busy : (s.pes me).busy = some job) : ∃ event t, Carried cluster s event ∧ s.step cluster event = some t := by
  have member : job ∈ (s.pes me).jobs := by
    rw [jobs_busy busy]
    exact List.mem_cons_self
  -- A job of the caller is executed with whatever the memory holds, as many bytes as it says.
  let contents : List UInt8 := List.replicate job.size.toNat 0
  have ready : job.handler = handlerPut ∧ (job.src.read contents).length = job.size.toNat ∧ job.destPe < cluster.n := by
    rcases piped.jobs me inside job member with ⟨handler,_,source,dest⟩ | ⟨i,bytes,_,made⟩
    · refine ⟨handler,?_,dest⟩
      rw [source]
      exact List.length_replicate
    · have fits := sized me job member bytes (by rw [made])
      refine ⟨by rw [made],?_,by rw [made]; exact inside⟩
      rw [made]
      exact fits
  obtain ⟨handler,fits,there⟩ := ready
  have puts : ∃ t, (s.setPe me {s.pes me with busy := none}).commPut cluster me job.originPe.toNat job.dest
      ⟨job.src.read contents,fits ▸ job.size.isLt⟩ job.destPe 0 = some t := commPut_enabled piped.wired _ _ _ _ there
  obtain ⟨t,put⟩ := puts
  refine ⟨.execute me contents 0,t,⟨⟨trivial,trivial⟩,trivial⟩,?_⟩
  unfold System.step
  rw [if_pos (show (Event.execute me contents 0).me < cluster.n from inside)]
  simp only [System.move,busy,Option.bind_eq_bind,Option.bind_some,System.execute]
  rw [if_pos handler,dif_pos fits]
  exact put

theorem dequeue_enabled (inside : me < cluster.n) (idle : (s.pes me).busy = none) (queued : (s.pes me).workQueue = job :: rest) :
    ∃ event t, Carried cluster s event ∧ s.step cluster event = some t := by
  refine ⟨.dequeue me,s.setPe me {s.pes me with busy := some job, workQueue := rest},⟨⟨trivial,trivial⟩,trivial⟩,?_⟩
  unfold System.step
  rw [if_pos (show (Event.dequeue me).me < cluster.n from inside)]
  simp only [System.move,idle,queued]

theorem send_enabled (piped : Piped cluster s) (inside : me < cluster.n) (front : (s.pes me).queue.queue = (pe,packet) :: rest) :
    ∃ event t, Carried cluster s event ∧ s.step cluster event = some t := by
  obtain ⟨peers,_⟩ := piped.queue me inside (pe,packet) (by rw [front]; exact List.mem_cons_self)
  obtain ⟨entry,found,_,index⟩ := cluster.index_eq peers.2.1 peers.2.2
  have led : cluster.socket me entry.index = some pe := by
    apply socket_eq piped.wired peers
    rw [index,List.getElem?_idxOf (Job.mem_remotes.mpr peers.2)]
  have fits : ∀ stamp, Writable (some packet.bytes.length) (packet.stamp stamp).bytes := by
    intro stamp count same
    cases same
    exact Nat.le_of_eq (packet.length_stamp stamp).symm
  have reliable : Reliable cluster s (.send me (some packet.bytes.length)) := by
    intro entry head
    rw [front] at head
    cases head
    rfl
  have moves : ∃ t, s.step cluster (.send me (some packet.bytes.length)) = some t := by
    unfold System.step
    rw [if_pos (show (Event.send me (some packet.bytes.length)).me < cluster.n from inside)]
    simp only [System.move,dequeueStamped,front,found,Option.bind_eq_bind,Option.bind_some,Option.pure_def,led]
    rw [if_pos (fits _)]
    exact ⟨_,rfl⟩
  obtain ⟨t,moved⟩ := moves
  exact ⟨_,t,⟨⟨reliable,trivial⟩,trivial⟩,moved⟩

theorem receiveSocket_enabled (packet : Packet) (rest : List UInt8) : ∃ out, receiveSocket me packetBuf (packet.bytes ++ rest)
    ⟨some packetSize,some packet.header.size.toNat,packet.data⟩ = some out := by
  have header : Readable (some packetSize) packetSize (packet.bytes ++ rest) := by
    intro count same
    cases same
    refine ⟨Nat.le_refl _,?_,fun _ => by decide⟩
    rw [List.length_append,Packet.length_bytes]
    omega
  have front : packet.bytes ++ rest = packet.header.bytes ++ (packet.data ++ rest) := by
    rw [Packet.bytes,List.append_assoc]
  have headLength : packet.header.bytes.length = packetSize := packet.header.length_bytes
  have taken : (packet.bytes ++ rest).take packetSize = packet.header.bytes := by
    rw [front,← headLength,List.take_left]
  have dropped : (packet.bytes ++ rest).drop packetSize = packet.data ++ rest := by
    rw [front,← headLength,List.drop_left]
  have payload : Readable (some packet.header.size.toNat) packet.header.size.toNat (packet.data ++ rest) := by
    intro count same
    cases same
    refine ⟨Nat.le_refl _,?_,id⟩
    rw [List.length_append,packet.sized]
    exact Nat.le_add_right _ _
  unfold receiveSocket
  rw [if_neg (fun not => not header)]
  simp only [networkReceive,taken,dropped,packet.header.read_bytes]
  rw [if_neg (by decide),if_neg (by simp),if_pos ⟨packet.sized,payload⟩]
  exact ⟨_,rfl⟩

theorem receive_enabled {packet : Packet} (wired : cluster.WiredUp) (peers : Peers cluster.toJob i me) (streams : s.streams i me = packet.bytes ++ rest) :
    ∃ event t, Carried cluster s event ∧ s.step cluster event = some t := by
  have led : cluster.socket me ((cluster.remotes me).idxOf i) = some i :=
    socket_eq wired peers.symm (List.getElem?_idxOf (Job.mem_remotes.mpr peers.symm.2))
  have receives : ∃ out, receiveSocket me (s.pes me).packetBuf (packet.bytes ++ rest)
      ⟨some packetSize,some packet.header.size.toNat,packet.data⟩ = some out := receiveSocket_enabled packet rest
  obtain ⟨out,ran⟩ := receives
  have headLength : packet.header.bytes.length = packetSize := packet.header.length_bytes
  have read : Header.read ((packet.bytes ++ rest).take packetSize) = packet.header := by
    rw [Packet.bytes,List.append_assoc,← headLength,List.take_left]
    simpa using packet.header.read_bytes []
  have reliable : Reliable cluster s (.receive me ((cluster.remotes me).idxOf i)
      ⟨some packetSize,some packet.header.size.toNat,packet.data⟩) := by
    intro peer also
    rw [led] at also
    cases also
    refine ⟨Or.inr rfl,Or.inr ?_⟩
    rw [streams,read]
  have moves : ∃ t, s.step cluster (.receive me ((cluster.remotes me).idxOf i)
      ⟨some packetSize,some packet.header.size.toNat,packet.data⟩) = some t := by
    unfold System.step
    rw [if_pos (show Event.me (.receive me _ _) < cluster.n from peers.2.1)]
    simp only [System.move,led,streams,ran,Option.bind_eq_bind,Option.bind_some]
    exact ⟨_,rfl⟩
  obtain ⟨t,moved⟩ := moves
  exact ⟨_,t,⟨⟨reliable,Or.inr (by simp)⟩,by simp [Event.Carries]⟩,moved⟩

-- As long as something is under way, one of the threads can go on.
theorem carried_enabled (piped : Piped cluster s) (sized : Buffered s) (busy : ¬ Idle cluster s) :
    ∃ event t, Carried cluster s event ∧ s.step cluster event = some t := by
  by_contra stuck
  have idle : ∀ p < cluster.n, (s.pes p).busy = none := by
    intro p inside
    cases job : (s.pes p).busy with
    | none => rfl
    | some job' => exact False.elim (stuck (execute_enabled piped sized inside job))
  apply busy
  refine ⟨?_,idle,?_,?_⟩
  · intro p inside
    cases queued : (s.pes p).workQueue with
    | nil => rfl
    | cons job rest => exact False.elim (stuck (dequeue_enabled inside (idle p inside) queued))
  · intro p inside
    cases front : (s.pes p).queue.queue with
    | nil => rfl
    | cons entry rest => exact False.elim (stuck (send_enabled piped inside front))
  · intro a b peers
    obtain ⟨packets,streams,_,_⟩ := piped.flow a b peers
    cases packets with
    | nil => exact streams
    | cons packet rest => exact False.elim (stuck (receive_enabled piped.wired peers streams))

-- What is idle has applied every remote put, in order.
theorem Idle.applied (idle : Idle cluster s) (piped : Piped cluster s) (peers : Peers cluster.toJob i k) :
    (s.updates i k).map Update.written = (s.calls i k).map RemotePut.written := by
  obtain ⟨packets,streams,_,ordered⟩ := piped.flow i k peers
  have fetched : s.fetched i k = [] := by
    unfold System.fetched Pe.jobs
    rw [idle.busy k peers.2.1,idle.workQueue k peers.2.1]
    rfl
  have queued : s.queued i k = [] := by
    unfold System.queued
    rw [idle.queue i peers.1]
    rfl
  have none : packets = [] := by
    cases packets with
    | nil => rfl
    | cons packet rest =>
      have lengths := congrArg List.length streams
      rw [idle.streams i k peers,List.flatMap_cons,List.length_append,Packet.length_bytes,List.length_nil] at lengths
      have size : packetSize = 29 := rfl
      omega
  rw [ordered,fetched,queued,none]
  simp

end OpenShmem
