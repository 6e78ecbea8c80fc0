import OpenShmem.Comm.System

namespace OpenShmem
open ByteMemory (memcpy)

-- The offset and the bytes of one memcpy.
def RemotePut.written (put : RemotePut) : BitVec 64 × List UInt8 := (put.dest,put.bytes)
def Update.written (update : Update) : BitVec 64 × List UInt8 := (update.dest,update.bytes)
def Packet.written (packet : Packet) : BitVec 64 × List UInt8 := (packet.header.heapOffset,packet.data)
def WorkJob.written (job : WorkJob) : BitVec 64 × List UInt8 := (job.dest,job.src.read [])

-- The five stages of the puts of i for k.
def System.calls (s : System) (i k : Nat) : List RemotePut := s.entered.filter fun put => put.origin = i ∧ put.target = k
def System.queued (s : System) (i k : Nat) : List Packet := ((s.pes i).queue.queue.filter (·.1 = k)).map Prod.snd
def System.fetched (s : System) (i k : Nat) : List WorkJob := (s.pes k).jobs.filter (·.originPe = BitVec.ofNat 32 i)
def System.updates (s : System) (i k : Nat) : List Update := s.applied.filter fun update => update.origin = i ∧ update.heap = k

-- What the network does is assumed: a write takes the whole packet, and a read finds
-- nothing or all that it asks for.
def Reliable (cluster : Cluster) (s : System) : Event → Prop
  | .send me result => ∀ entry, (s.pes me).queue.queue.head? = some entry → result = some entry.2.bytes.length
  | .receive me index reads => ∀ peer, cluster.socket me index = some peer →
      (reads.header = none ∨ reads.header = some packetSize) ∧ (reads.payload = none ∨
        reads.payload = some (Header.read ((s.streams peer me).take packetSize)).size.toNat)
  | _ => True

instance (cluster : Cluster) (s : System) : (event : Event) → Decidable (Reliable cluster s event)
  | .put _ _ _ _ _ => inferInstanceAs (Decidable True)
  | .putNbi _ _ _ _ => inferInstanceAs (Decidable True)
  | .sync _ _ => inferInstanceAs (Decidable True)
  | .dequeue _ => inferInstanceAs (Decidable True)
  | .execute _ _ _ => inferInstanceAs (Decidable True)
  | .send me result => inferInstanceAs (Decidable (∀ entry, (s.pes me).queue.queue.head? = some entry →
      result = some entry.2.bytes.length))
  | .receive me index reads => inferInstanceAs (Decidable (∀ peer, cluster.socket me index = some peer →
      (reads.header = none ∨ reads.header = some packetSize) ∧ (reads.payload = none ∨
        reads.payload = some (Header.read ((s.streams peer me).take packetSize)).size.toNat)))

-- The read of a payload, which is made once its header was found, finds it too.
def PayloadFound : Event → Prop
  | .receive _ _ reads => reads.header = none ∨ reads.payload ≠ none
  | _ => True

instance : (event : Event) → Decidable (PayloadFound event)
  | .put _ _ _ _ _ => inferInstanceAs (Decidable True)
  | .putNbi _ _ _ _ => inferInstanceAs (Decidable True)
  | .sync _ _ => inferInstanceAs (Decidable True)
  | .dequeue _ => inferInstanceAs (Decidable True)
  | .execute _ _ _ => inferInstanceAs (Decidable True)
  | .send _ _ => inferInstanceAs (Decidable True)
  | .receive _ _ reads => inferInstanceAs (Decidable (reads.header = none ∨ reads.payload ≠ none))

-- Every write into a heap is recorded: an origin's own, on its node, or the heap's owner's.
structure Recorded (cluster : Cluster) (s : System) : Prop where
  heaps : ∀ k, s.heaps k = (s.applied.filter (·.heap = k)).foldl
    (fun heap update => memcpy heap update.dest.toNat update.bytes) (System.start.heaps k)
  placed : ∀ update ∈ s.applied,
    (update.actor = update.origin ∧ cluster.node update.origin = cluster.node update.heap) ∨
    (update.actor = update.heap ∧ Peers cluster.toJob update.origin update.heap)

-- What k's heap gets on behalf of i is what i's comm_remote_put calls for k would have
-- written there, so far as they got, and nothing else writes into a heap of another node.
structure Refined (cluster : Cluster) (s : System) : Prop extends Recorded cluster s where
  ordered : ∀ i k, Peers cluster.toJob i k →
    (s.updates i k).map Update.written <+: (s.calls i k).map RemotePut.written

def PutBy (i : Nat) (packet : Packet) : Prop :=
  packet.header.handler = handlerPut ∧ packet.header.origin = BitVec.ofNat 32 i

def OwnJob (cluster : Cluster) (me : Nat) (job : WorkJob) : Prop :=
  job.handler = handlerPut ∧ job.originPe = BitVec.ofNat 32 me ∧ job.src = .caller ∧ job.destPe < cluster.n

def FetchedJob (cluster : Cluster) (me : Nat) (job : WorkJob) : Prop :=
  ∃ i bytes, Peers cluster.toJob i me ∧ job = ⟨handlerPut,me,BitVec.ofNat 32 i,job.dest,.buffer bytes,job.size⟩

-- The puts of i for k: applied, fetched by k, written to the socket and queued.
def Flow (i k : Nat) (s : System) : Prop :=
  ∃ packets : List Packet, s.streams i k = packets.flatMap Packet.bytes ∧ (∀ packet ∈ packets, PutBy i packet) ∧
    (s.calls i k).map RemotePut.written = (s.updates i k).map Update.written ++ ((s.fetched i k).map WorkJob.written ++
      (packets.map Packet.written ++ (s.queued i k).map Packet.written))

structure Piped (cluster : Cluster) (s : System) : Prop extends Recorded cluster s where
  wired : cluster.WiredUp
  queue : ∀ me < cluster.n, ∀ entry ∈ (s.pes me).queue.queue, Peers cluster.toJob me entry.1 ∧ PutBy me entry.2
  jobs : ∀ me < cluster.n, ∀ job ∈ (s.pes me).jobs, OwnJob cluster me job ∨ FetchedJob cluster me job
  flow : ∀ i k, Peers cluster.toJob i k → Flow i k s

variable {cluster : Cluster} {s t : System} {me pe i k : Nat}

section Fields
variable (s : System) (me pe actor origin heap i k : Nat) (entry : Pe) (issue : Issue) (dest prior : BitVec 64)
  (bytes : List UInt8) (src : Source)

@[simp] theorem calls_setPe : (s.setPe me entry).calls i k = s.calls i k := rfl
@[simp] theorem updates_setPe : (s.setPe me entry).updates i k = s.updates i k := rfl

theorem heaps_write : (s.write actor origin heap dest bytes).heaps =
    Function.update s.heaps heap (memcpy (s.heaps heap) dest.toNat bytes) := rfl

theorem updates_write : (s.write actor origin heap dest bytes).updates i k = s.updates i k ++
    if origin = i ∧ heap = k then [⟨actor,origin,heap,dest,bytes,(s.pes actor).calls⟩] else [] := by
  unfold System.updates System.write
  rw [List.filter_append]
  by_cases here : origin = i ∧ heap = k
  · simp [here]
  · simp [here]

theorem calls_enqueue : (s.enqueue me pe dest src prior).calls i k = s.calls i k ++
    if me = i ∧ pe = k then [⟨me,pe,dest,src.bytes,(s.pes me).calls⟩] else [] := by
  unfold System.calls System.enqueue
  rw [List.filter_append]
  by_cases here : me = i ∧ pe = k
  · simp [here]
  · simp [here]

end Fields

theorem peNumber (inside : me < cluster.n) : (BitVec.ofNat 32 me).toNat = me := by
  have small := cluster.small
  rw [BitVec.toNat_ofNat]
  exact Nat.mod_eq_of_lt (by omega)

theorem peNumber_inj (here : i < cluster.n) (there : k < cluster.n) (same : BitVec.ofNat 32 i = BitVec.ofNat 32 k) :
    i = k := by
  rw [← peNumber here,same,peNumber there]

theorem Flow.congr (flow : Flow i k s) (streams : t.streams i k = s.streams i k) (calls : t.calls i k = s.calls i k)
    (updates : t.updates i k = s.updates i k) (fetched : t.fetched i k = s.fetched i k)
    (queued : t.queued i k = s.queued i k) : Flow i k t := by
  unfold Flow
  rw [streams,calls,updates,fetched,queued]
  exact flow

-- Steps that only touch the barrier, or move a job from the queue into the worker's hands.
theorem Piped.congr (piped : Piped cluster s) (jobs : ∀ p, (t.pes p).jobs = (s.pes p).jobs)
    (queue : ∀ p, (t.pes p).queue.queue = (s.pes p).queue.queue) (streams : t.streams = s.streams)
    (entered : t.entered = s.entered) (applied : t.applied = s.applied) (heaps : t.heaps = s.heaps) :
    Piped cluster t := by
  refine ⟨⟨?_,?_⟩,piped.wired,?_,?_,?_⟩
  · intro p
    rw [heaps,applied]
    exact piped.heaps p
  · intro update member
    rw [applied] at member
    exact piped.placed update member
  · intro p inside entry member
    rw [queue] at member
    exact piped.queue p inside entry member
  · intro p inside job member
    rw [jobs] at member
    exact piped.jobs p inside job member
  · intro a b peers
    apply (piped.flow a b peers).congr
    · rw [streams]
    · unfold System.calls
      rw [entered]
    · unfold System.updates
      rw [applied]
    · unfold System.fetched
      rw [jobs]
    · unfold System.queued
      rw [queue]

theorem Recorded.write (recorded : Recorded cluster s)
    (place : (actor = origin ∧ cluster.node origin = cluster.node heap) ∨ (actor = heap ∧ Peers cluster.toJob origin heap)) :
    Recorded cluster (s.write actor origin heap dest bytes) := by
  constructor
  · intro p
    unfold System.write
    dsimp only
    rw [List.filter_append,List.foldl_append,← recorded.heaps p]
    by_cases here : heap = p
    · subst p
      simp
    · simp [here,Ne.symm here]
  · intro update' member
    rcases List.mem_append.mp member with old | new
    · exact recorded.placed update' old
    · cases List.mem_singleton.mp new
      exact place

-- A write on the node leaves the puts to other nodes alone.
theorem Piped.write (piped : Piped cluster s) (near : cluster.node me = cluster.node pe) :
    Piped cluster (s.write me me pe dest bytes) := by
  refine ⟨piped.toRecorded.write (Or.inl ⟨rfl,near⟩),piped.wired,piped.queue,piped.jobs,?_⟩
  intro a b peers
  have updates : (s.write me me pe dest bytes).updates a b = s.updates a b := by
    rw [updates_write,if_neg,List.append_nil]
    intro ⟨first,second⟩
    subst first second
    exact peers.2.2 near
  exact (piped.flow a b peers).congr rfl rfl updates rfl rfl

theorem Piped.enqueue (piped : Piped cluster s) (peers : Peers cluster.toJob me pe) :
    Piped cluster (s.enqueue me pe dest src prior) := by
  have putBy : PutBy me (putPacket me dest src prior) := ⟨rfl,rfl⟩
  refine ⟨⟨piped.heaps,piped.placed⟩,piped.wired,?_,?_,?_⟩
  · intro p inside entry member
    by_cases here : p = me
    · subst p
      simp only [System.enqueue,pes_setPe,Function.update_self] at member
      rcases List.mem_append.mp member with old | new
      · exact piped.queue me inside entry old
      · cases List.mem_singleton.mp new
        exact ⟨peers,putBy⟩
    · simp only [System.enqueue,pes_setPe,Function.update_of_ne here] at member
      exact piped.queue p inside entry member
  · intro p inside job member
    apply piped.jobs p inside job
    by_cases here : p = me
    · subst p
      simpa [System.enqueue,Pe.jobs] using member
    · simpa [System.enqueue,here] using member
  · intro a b others
    obtain ⟨packets,streams,made,ordered⟩ := piped.flow a b others
    refine ⟨packets,streams,made,?_⟩
    have fetched : (s.enqueue me pe dest src prior).fetched a b = s.fetched a b := by
      unfold System.fetched System.enqueue
      by_cases here : b = me
      · subst b
        simp [Pe.jobs]
      · simp [here]
    have queued : (s.enqueue me pe dest src prior).queued a b = s.queued a b ++
        if me = a ∧ pe = b then [putPacket me dest src prior] else [] := by
      unfold System.queued System.enqueue
      by_cases here : a = me
      · subst a
        by_cases there : pe = b
        · simp [there]
        · simp [there]
      · simp [here,Ne.symm here]
    rw [calls_enqueue,fetched,queued,List.map_append,List.map_append,ordered]
    have updates : (s.enqueue me pe dest src prior).updates a b = s.updates a b := rfl
    rw [updates]
    by_cases here : me = a ∧ pe = b
    · simp [if_pos here,RemotePut.written,Packet.written,putPacket]
    · simp [if_neg here]

theorem Piped.commPut (piped : Piped cluster s) (inside : me < cluster.n)
    (ran : s.commPut cluster me me dest src pe prior = some t) : Piped cluster t := by
  obtain ⟨there,⟨near,rfl⟩ | ⟨other,rfl⟩⟩ := commPut_cases piped.wired ran
  · exact piped.write near
  · exact piped.enqueue ⟨inside,there,other⟩

-- A PE's own jobs come and go without touching what it fetched.
theorem Piped.setJobs (piped : Piped cluster s) (queue : entry.queue.queue = (s.pes me).queue.queue)
    (jobs : me < cluster.n → ∀ job ∈ entry.jobs, OwnJob cluster me job ∨ FetchedJob cluster me job)
    (kept : ∀ a, Peers cluster.toJob a me → entry.jobs.filter (·.originPe = BitVec.ofNat 32 a) = s.fetched a me) :
    Piped cluster (s.setPe me entry) := by
  refine ⟨⟨piped.heaps,piped.placed⟩,piped.wired,?_,?_,?_⟩
  · intro p below entry' member
    apply piped.queue p below entry'
    by_cases here : p = me
    · subst p
      rw [← queue]
      simpa using member
    · simpa [here] using member
  · intro p below job member
    by_cases here : p = me
    · subst p
      simp only [pes_setPe,Function.update_self] at member
      exact jobs below job member
    · simp only [pes_setPe,Function.update_of_ne here] at member
      exact piped.jobs p below job member
  · intro a b peers
    apply (piped.flow a b peers).congr
    · rfl
    · rfl
    · rfl
    · by_cases here : b = me
      · subst b
        rw [← kept a peers]
        simp [System.fetched]
      · simp [System.fetched,here]
    · by_cases here : a = me
      · subst a
        simp [System.queued,queue]
      · simp [System.queued,here]

theorem OwnJob.apart (own : OwnJob cluster me job) (peers : Peers cluster.toJob a me) :
    job.originPe ≠ BitVec.ofNat 32 a := by
  intro same
  have equal := peNumber_inj peers.2.1 peers.1 (own.2.1.symm.trans same)
  exact peers.2.2 (equal ▸ rfl)

theorem Piped.putNbi (piped : Piped cluster s) (own : OwnJob cluster me job) :
    Piped cluster (s.setPe me {s.pes me with workQueue := (s.pes me).workQueue ++ [job]}) := by
  apply piped.setJobs
  · rfl
  · intro inside other member
    simp only [Pe.jobs,← List.append_assoc] at member
    rcases List.mem_append.mp member with old | new
    · exact piped.jobs me inside other old
    · cases List.mem_singleton.mp new
      exact Or.inl own
  · intro a peers
    simp [System.fetched,Pe.jobs,own.apart peers]

theorem jobs_busy {entry : Pe} (busy : entry.busy = some job) :
    entry.jobs = job :: {entry with busy := none}.jobs := by
  simp [Pe.jobs,busy]

theorem Piped.finish (piped : Piped cluster s) (busy : (s.pes me).busy = some job) (own : OwnJob cluster me job) :
    Piped cluster (s.setPe me {s.pes me with busy := none}) := by
  have jobs := jobs_busy busy
  apply piped.setJobs
  · rfl
  · intro inside other member
    apply piped.jobs me inside other
    rw [jobs]
    exact List.mem_cons_of_mem _ member
  · intro a peers
    simp [System.fetched,jobs,own.apart peers]

-- A fetched job writes into the heap of the PE that fetched it.
theorem Piped.apply (piped : Piped cluster s) (peers : Peers cluster.toJob i me)
    (busy : (s.pes me).busy = some ⟨handlerPut,me,BitVec.ofNat 32 i,dest,.buffer bytes,size⟩) :
    Piped cluster ((s.setPe me {s.pes me with busy := none}).write me i me dest bytes) := by
  have jobs := jobs_busy busy
  have before : Recorded cluster (s.setPe me {s.pes me with busy := none}) := ⟨piped.heaps,piped.placed⟩
  refine ⟨before.write (Or.inr ⟨rfl,peers⟩),piped.wired,?_,?_,?_⟩
  · intro p below entry member
    apply piped.queue p below entry
    by_cases here : p = me
    · subst p
      simpa [System.write] using member
    · simpa [System.write,here] using member
  · intro p below job member
    apply piped.jobs p below job
    by_cases here : p = me
    · subst p
      rw [jobs]
      apply List.mem_cons_of_mem
      simpa [System.write] using member
    · simpa [System.write,here] using member
  · intro a b others
    obtain ⟨packets,streams,made,ordered⟩ := piped.flow a b others
    refine ⟨packets,streams,made,?_⟩
    rw [updates_write,updates_setPe]
    have queued : ((s.setPe me {s.pes me with busy := none}).write me i me dest bytes).queued a b = s.queued a b := by
      unfold System.queued System.write
      by_cases here : a = me
      · subst a
        simp
      · simp [here]
    have calls : ((s.setPe me {s.pes me with busy := none}).write me i me dest bytes).calls a b = s.calls a b := rfl
    rw [queued,calls,ordered]
    by_cases here : i = a ∧ me = b
    · obtain ⟨rfl,rfl⟩ := here
      have fetched : s.fetched i me = ⟨handlerPut,me,BitVec.ofNat 32 i,dest,.buffer bytes,size⟩ ::
          ((s.setPe me {s.pes me with busy := none}).write me i me dest bytes).fetched i me := by
        unfold System.fetched
        rw [jobs]
        simp [System.write]
      rw [fetched]
      simp [WorkJob.written,Update.written,JobSource.read]
    · have fetched : ((s.setPe me {s.pes me with busy := none}).write me i me dest bytes).fetched a b = s.fetched a b := by
        by_cases there : b = me
        · subst b
          have apart : BitVec.ofNat 32 i ≠ BitVec.ofNat 32 a := by
            intro same
            exact here ⟨peNumber_inj peers.1 others.1 same,rfl⟩
          unfold System.fetched
          rw [jobs]
          simp [System.write,apart]
        · simp [System.fetched,System.write,there]
      rw [fetched,if_neg here,List.append_nil]

-- A reliable write: the packet at the front of the queue goes to the PE it is for.
theorem send_cases (piped : Piped cluster s) (inside : me < cluster.n) (reliable : Reliable cluster s (.send me result))
    (moved : s.move cluster (.send me result) = some t) : ∃ pe packet rest stamp indices,
      (s.pes me).queue.queue = (pe,packet) :: rest ∧ Peers cluster.toJob me pe ∧
      t = {s.setPe me {s.pes me with queue := ⟨rest,indices⟩} with
        streams := setSlot s.streams me pe (s.streams me pe ++ (packet.stamp stamp).bytes)} := by
  obtain ⟨⟨queue,index,stamped⟩,ran,made⟩ := Option.bind_eq_some_iff.mp moved
  obtain ⟨pe,packet,entry,front,found,rfl,rfl,_⟩ := dequeue_cases ran
  obtain ⟨peers,_⟩ := piped.queue me inside (pe,packet) (by rw [front]; exact List.mem_cons_self)
  obtain ⟨again,also,_,index⟩ := cluster.index_eq peers.2.1 peers.2.2
  rw [found] at also
  cases also
  obtain ⟨peer,led,written⟩ := Option.bind_eq_some_iff.mp made
  dsimp only at led written
  have place := socket_peer led
  rw [index,List.getElem?_idxOf (Job.mem_remotes.mpr peers.2)] at place
  cases place
  have full := reliable (pe,packet) (by rw [front]; rfl)
  subst full
  split at written
  · cases written
    refine ⟨pe,packet,queue.queue,(s.pes me).queue.requestIndices entry.index + 1,queue.requestIndices,front,peers,?_⟩
    dsimp only
    rw [← Packet.length_stamp packet ((s.pes me).queue.requestIndices entry.index + 1),networkSend_whole]
  · cases written

-- A reliable round of the receiver takes one packet off the socket, or nothing.
theorem receive_cases (inside : me < cluster.n) (reliable : Reliable cluster s (.receive me index reads))
    (found : PayloadFound (.receive me index reads)) (moved : s.move cluster (.receive me index reads) = some t) :
    ∃ peer buffer, Peers cluster.toJob peer me ∧
      ∀ packets : List Packet, s.streams peer me = packets.flatMap Packet.bytes →
        t = s.setPe me {s.pes me with packetBuf := buffer} ∨
        ∃ packet rest, packets = packet :: rest ∧
          t = {s.setPe me {s.pes me with
              packetBuf := buffer, workQueue := (s.pes me).workQueue ++ [packet.job me]} with
            streams := setSlot s.streams peer me (rest.flatMap Packet.bytes)} := by
  obtain ⟨peer,led,received⟩ := Option.bind_eq_some_iff.mp moved
  obtain ⟨⟨buffer,stream,job⟩,ran,made⟩ := Option.bind_eq_some_iff.mp received
  cases made
  have peers : Peers cluster.toJob me peer := ⟨inside,Job.mem_remotes.mp (List.mem_of_getElem? (socket_peer led))⟩
  have whole : WholeReads (s.streams peer me) reads := by
    obtain ⟨header,payload⟩ := reliable peer led
    rcases header with absent | full
    · exact Or.inl absent
    · refine Or.inr ⟨full,?_⟩
      rcases found with absent | present
      · rw [absent] at full
        cases full
      · exact payload.resolve_left present
  refine ⟨peer,buffer,peers.symm,?_⟩
  intro packets framed
  rcases receive_whole framed whole ran with ⟨rfl,rfl⟩ | ⟨packet,rest,split,rfl,rfl⟩
  · left
    simp [System.setPe,setSlot]
  · right
    exact ⟨packet,rest,split,rfl⟩

theorem Piped.send (piped : Piped cluster s) (front : (s.pes me).queue.queue = (pe,packet) :: rest)
    (inside : me < cluster.n) :
    Piped cluster {s.setPe me {s.pes me with queue := ⟨rest,indices⟩} with
      streams := setSlot s.streams me pe (s.streams me pe ++ (packet.stamp stamp).bytes)} := by
  obtain ⟨_,putBy⟩ := piped.queue me inside (pe,packet) (by rw [front]; exact List.mem_cons_self)
  refine ⟨⟨piped.heaps,piped.placed⟩,piped.wired,?_,?_,?_⟩
  · intro p below entry member
    apply piped.queue p below entry
    by_cases here : p = me
    · subst p
      rw [front]
      apply List.mem_cons_of_mem
      simpa using member
    · simpa [here] using member
  · intro p below job member
    apply piped.jobs p below job
    by_cases here : p = me
    · subst p
      simpa [Pe.jobs] using member
    · simpa [here] using member
  · intro a b others
    obtain ⟨packets,streams,made,ordered⟩ := piped.flow a b others
    have fetched : (s.setPe me {s.pes me with queue := ⟨rest,indices⟩}).fetched a b = s.fetched a b := by
      unfold System.fetched
      by_cases here : b = me
      · subst b
        simp [Pe.jobs]
      · simp [here]
    have queued : s.queued a b = (if me = a ∧ pe = b then [packet] else []) ++
        (s.setPe me {s.pes me with queue := ⟨rest,indices⟩}).queued a b := by
      unfold System.queued
      by_cases here : a = me
      · subst a
        rw [front]
        by_cases there : pe = b
        · simp [there]
        · simp [there]
      · simp [here,Ne.symm here]
    by_cases here : me = a ∧ pe = b
    · obtain ⟨rfl,rfl⟩ := here
      refine ⟨packets ++ [packet.stamp stamp],?_,?_,?_⟩
      · simp [setSlot,streams]
      · intro packet' member
        rcases List.mem_append.mp member with old | new
        · exact made packet' old
        · cases List.mem_singleton.mp new
          exact putBy
      · change (s.calls me pe).map RemotePut.written = (s.updates me pe).map Update.written ++
          (((s.setPe me {s.pes me with queue := ⟨rest,indices⟩}).fetched me pe).map WorkJob.written ++ _)
        rw [ordered,queued,fetched]
        simp only [and_self,if_true,List.map_append,List.append_assoc]
        rfl
    · refine ⟨packets,?_,made,?_⟩
      · dsimp only
        rw [← streams]
        unfold setSlot
        by_cases same : a = me
        · subst a
          have apart : b ≠ pe := fun equal => here ⟨rfl,equal.symm⟩
          simp [apart]
        · simp [same]
      · rw [if_neg here,List.nil_append] at queued
        rw [queued] at ordered
        rw [← fetched] at ordered
        exact ordered

theorem Piped.receive (piped : Piped cluster s) (peers : Peers cluster.toJob i me)
    (streams : s.streams i me = (packet :: rest).flatMap Packet.bytes) (made : ∀ packet' ∈ packet :: rest, PutBy i packet')
    (ordered : (s.calls i me).map RemotePut.written = (s.updates i me).map Update.written ++
      ((s.fetched i me).map WorkJob.written ++ ((packet :: rest).map Packet.written ++ (s.queued i me).map Packet.written))) :
    Piped cluster {s.setPe me {s.pes me with
        packetBuf := buffer, workQueue := (s.pes me).workQueue ++ [packet.job me]} with
      streams := setSlot s.streams i me (rest.flatMap Packet.bytes)} := by
  obtain ⟨handler,origin⟩ := made packet List.mem_cons_self
  have job : FetchedJob cluster me (packet.job me) := by
    refine ⟨i,packet.data,peers,?_⟩
    simp [Packet.job,handler,origin]
  refine ⟨⟨piped.heaps,piped.placed⟩,piped.wired,?_,?_,?_⟩
  · intro p below entry member
    apply piped.queue p below entry
    by_cases here : p = me
    · subst p
      simpa using member
    · simpa [here] using member
  · intro p below job' member
    by_cases here : p = me
    · subst p
      simp only [pes_setPe,Function.update_self,Pe.jobs,← List.append_assoc] at member
      rcases List.mem_append.mp member with old | new
      · exact piped.jobs me below job' old
      · cases List.mem_singleton.mp new
        exact Or.inr job
    · simp only [pes_setPe,Function.update_of_ne here] at member
      exact piped.jobs p below job' member
  · intro a b others
    have queued : (s.setPe me {s.pes me with
        packetBuf := buffer, workQueue := (s.pes me).workQueue ++ [packet.job me]}).queued a b = s.queued a b := by
      unfold System.queued
      by_cases here : a = me
      · subst a
        simp
      · simp [here]
    by_cases here : a = i ∧ b = me
    · obtain ⟨rfl,rfl⟩ := here
      refine ⟨rest,by simp [setSlot],fun packet' member => made packet' (List.mem_cons_of_mem _ member),?_⟩
      have fetched : (s.setPe b {s.pes b with
          packetBuf := buffer, workQueue := (s.pes b).workQueue ++ [packet.job b]}).fetched a b =
          s.fetched a b ++ [packet.job b] := by
        simp [System.fetched,Pe.jobs,Packet.job,origin]
      change (s.calls a b).map RemotePut.written = (s.updates a b).map Update.written ++
        (((s.setPe b {s.pes b with
          packetBuf := buffer, workQueue := (s.pes b).workQueue ++ [packet.job b]}).fetched a b).map WorkJob.written ++
        (rest.map Packet.written ++ ((s.setPe b {s.pes b with
          packetBuf := buffer, workQueue := (s.pes b).workQueue ++ [packet.job b]}).queued a b).map Packet.written))
      rw [queued,fetched,ordered]
      simp [Packet.written,Packet.job,WorkJob.written,JobSource.read]
    · apply (piped.flow a b others).congr
      · dsimp only
        unfold setSlot
        by_cases same : a = i
        · subst a
          have apart : b ≠ me := fun equal => here ⟨rfl,equal⟩
          simp [apart]
        · simp [same]
      · rfl
      · rfl
      · unfold System.fetched
        by_cases same : b = me
        · subst b
          have apart : packet.header.origin ≠ BitVec.ofNat 32 a := by
            intro equal
            exact here ⟨(peNumber_inj peers.1 others.1 (origin.symm.trans equal)).symm,rfl⟩
          simp [Pe.jobs,Packet.job,apart]
        · simp [same]
      · exact queued

theorem perform_piped (piped : Piped cluster s) (inside : me < cluster.n)
    (ran : s.perform cluster me prior effect = some t) : Piped cluster t := by
  cases effect with
  | nothing =>
    cases ran
    exact piped
  | call =>
    cases ran
    exact piped.setJobs rfl (piped.jobs me) fun _ _ => rfl
  | ret =>
    cases ran
    exact piped.setJobs rfl (piped.jobs me) fun _ _ => rfl
  | zero slot =>
    cases ran
    exact piped.write rfl
  | signal pe slot => exact piped.commPut inside ran

-- The worker puts for its own PE, or writes a fetched put into its heap.
theorem execute_cases (piped : Piped cluster s) (inside : me < cluster.n) (busy : (s.pes me).busy = some job)
    (ran : (s.setPe me {s.pes me with busy := none}).execute cluster me job contents prior = some t) :
    (OwnJob cluster me job ∧ ∃ src : Source, src.bytes.length = job.size.toNat ∧
      (s.setPe me {s.pes me with busy := none}).commPut cluster me me job.dest src job.destPe prior = some t) ∨
    ∃ i bytes, Peers cluster.toJob i me ∧ job = ⟨handlerPut,me,BitVec.ofNat 32 i,job.dest,.buffer bytes,job.size⟩ ∧
      t = (s.setPe me {s.pes me with busy := none}).write me i me job.dest bytes := by
  have member : job ∈ (s.pes me).jobs := by
    rw [jobs_busy busy]
    exact List.mem_cons_self
  unfold System.execute at ran
  rcases piped.jobs me inside job member with own | ⟨origin,bytes,peers,made⟩
  · rw [if_pos own.1] at ran
    split at ran
    · rename_i fits
      rw [own.2.1,peNumber inside] at ran
      exact Or.inl ⟨own,_,fits,ran⟩
    · cases ran
  · rw [made] at ran
    rw [if_pos rfl] at ran
    split at ran
    · rw [peNumber peers.1] at ran
      obtain ⟨_,⟨_,rfl⟩ | ⟨other,_⟩⟩ := commPut_cases piped.wired ran
      · exact Or.inr ⟨origin,bytes,peers,made,rfl⟩
      · exact absurd rfl other
    · cases ran

theorem step_piped (piped : Piped cluster s) (reliable : Reliable cluster s event) (found : PayloadFound event)
    (moved : s.step cluster event = some t) : Piped cluster t := by
  unfold System.step at moved
  split at moved
  · rename_i inside
    cases event with
    | put me dest src pe prior =>
      simp only [System.move] at moved
      split at moved
      · apply Piped.commPut (piped.congr _ _ _ _ _ _) inside moved
        all_goals intros; rfl
      · cases moved
    | putNbi me dest size pe =>
      simp only [System.move] at moved
      split at moved
      · rename_i place
        cases moved
        exact Piped.putNbi (piped.congr (fun _ => rfl) (fun _ => rfl) rfl rfl rfl rfl) ⟨rfl,rfl,rfl,place.1⟩
      · cases moved
    | sync me prior =>
      obtain ⟨⟨pc,effect⟩,_,performed⟩ := Option.bind_eq_some_iff.mp moved
      have advanced : Piped cluster (s.setPe me {s.pes me with pc := pc}) :=
        piped.setJobs rfl (piped.jobs me) fun _ _ => rfl
      exact perform_piped advanced inside performed
    | dequeue me =>
      simp only [System.move] at moved
      split at moved
      · rename_i job rest idle queued
        cases moved
        have jobs : (s.pes me).jobs = Pe.jobs {s.pes me with busy := some job, workQueue := rest} := by
          simp [Pe.jobs,idle,queued]
        apply piped.setJobs
        · rfl
        · rw [← jobs]
          exact piped.jobs me
        · intro a peers
          rw [← jobs]
          rfl
      · cases moved
    | execute me contents prior =>
      obtain ⟨job,busy,ran⟩ := Option.bind_eq_some_iff.mp moved
      rcases execute_cases piped inside busy ran with ⟨own,src,_,put⟩ | ⟨i,bytes,peers,made,rfl⟩
      · exact (piped.finish busy own).commPut inside put
      · rw [made] at busy
        exact piped.apply peers busy
    | send me result =>
      obtain ⟨pe,packet,rest,stamp,indices,front,peers,rfl⟩ := send_cases piped inside reliable moved
      exact piped.send front inside
    | receive me index reads =>
      obtain ⟨peer,buffer,peers,cases⟩ := receive_cases inside reliable found moved
      obtain ⟨packets,streams,made,ordered⟩ := piped.flow peer me peers
      rcases cases packets streams with rfl | ⟨packet,rest,rfl,rfl⟩
      · exact piped.setJobs rfl (piped.jobs me) fun _ _ => rfl
      · exact piped.receive peers streams made ordered
  · cases moved

theorem start_piped (wired : cluster.WiredUp) : Piped cluster System.start := by
  refine ⟨⟨fun _ => rfl,?_⟩,wired,?_,?_,?_⟩
  · intro update member
    cases member
  · intro p below entry member
    cases member
  · intro p below job member
    cases member
  · intro a b peers
    refine ⟨[],rfl,?_,rfl⟩
    intro packet member
    cases member

-- The remote puts are the local puts of their calls, in order and each at most once, if
-- every payload is found with its header.
theorem remote_put_refines (cluster : Cluster) (wired : cluster.WiredUp) (events : List Event)
    (meets : (systems cluster).Meets (fun s event => Reliable cluster s event ∧ PayloadFound event) System.start events)
    (ran : (systems cluster).run System.start events = some s) : Refined cluster s := by
  have kept : ∀ s event t, Piped cluster s → Reliable cluster s event ∧ PayloadFound event →
      (systems cluster).step s event = some t → Piped cluster t := by
    intro s event t piped ⟨reliable,found⟩ moved
    exact step_piped piped reliable found moved
  have piped := Guarded.Machine.run_keeps kept (start_piped wired) meets ran
  refine ⟨piped.toRecorded,?_⟩
  intro i k peers
  obtain ⟨packets,_,_,ordered⟩ := piped.flow i k peers
  rw [ordered]
  exact List.prefix_append _ _

-- PE 0 puts twice into PE 1's heap and PE 1 once into PE 0's; all three get through.
theorem remote_put_refines_two : ∃ s, (systems pairCluster).run System.start
    [.put 0 64 ⟨[7,8,9],by decide⟩ 1 5,.put 1 32 ⟨[4],by decide⟩ 0 5,.put 0 65 ⟨[6,6],by decide⟩ 1 5,.send 0 (some 32),
      .send 1 (some 30),.receive 1 0 ⟨some 29,some 3,[1,1,1]⟩,.send 0 (some 31),.receive 0 0 ⟨some 29,some 1,[1]⟩,
      .dequeue 1,.receive 1 0 ⟨some 29,some 2,[1,1]⟩,.execute 1 [] 0,.dequeue 0,.dequeue 1,.execute 0 [] 0,.execute 1 [] 0] =
      some s ∧ (s.updates 0 1).map Update.written = [(64,[7,8,9]),(65,[6,6])] ∧ Refined pairCluster s := by
  let events : List Event := [.put 0 64 ⟨[7,8,9],by decide⟩ 1 5,.put 1 32 ⟨[4],by decide⟩ 0 5,
    .put 0 65 ⟨[6,6],by decide⟩ 1 5,.send 0 (some 32),.send 1 (some 30),.receive 1 0 ⟨some 29,some 3,[1,1,1]⟩,
    .send 0 (some 31),.receive 0 0 ⟨some 29,some 1,[1]⟩,.dequeue 1,.receive 1 0 ⟨some 29,some 2,[1,1]⟩,
    .execute 1 [] 0,.dequeue 0,.dequeue 1,.execute 0 [] 0,.execute 1 [] 0]
  have written : ((systems pairCluster).run System.start events).map (fun s => (s.updates 0 1).map Update.written) =
      some [(64,[7,8,9]),(65,[6,6])] := by decide +kernel
  obtain ⟨s,ran,updates⟩ := Option.map_eq_some_iff.mp written
  exact ⟨s,ran,updates,remote_put_refines pairCluster pair_wired events (by decide +kernel) ran⟩

-- The payload is not found: what malloc returned is written into the heap.
theorem malloc_bytes_written :
    ¬ ∀ (cluster : Cluster) (events : List Event) (s : System), cluster.WiredUp →
      (systems cluster).Meets (Reliable cluster) System.start events →
      (systems cluster).run System.start events = some s → Refined cluster s := by
  intro claim
  let events : List Event := [.put 0 64 ⟨[7,8,9],by decide⟩ 1 5,.send 0 (some 32),
    .receive 1 0 ⟨some 29,none,[1,1,1]⟩,.dequeue 1,.execute 1 [] 0]
  have written : ((systems pairCluster).run System.start events).map
      (fun s => ((s.updates 0 1).map Update.written,(s.calls 0 1).map RemotePut.written)) =
      some ([(64,[1,1,1])],[(64,[7,8,9])]) := by decide +kernel
  obtain ⟨s,ran,lists⟩ := Option.map_eq_some_iff.mp written
  have peers : Peers pairCluster.toJob 0 1 := ⟨by decide,by decide,by decide⟩
  have ordered := (claim pairCluster events s pair_wired (by decide +kernel) ran).ordered 0 1 peers
  rw [(Prod.mk.inj lists).1,(Prod.mk.inj lists).2] at ordered
  exact absurd ordered (by decide)

end OpenShmem
