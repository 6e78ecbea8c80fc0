import OpenShmem.Comm.Locality
import OpenShmem.Comm.Packet
import OpenShmem.Library.Machine
import Mathlib.Data.List.Infix

namespace OpenShmem

-- write(): none is -1. The bytes that the socket accepted.
def networkSend (result : Option Nat) (bytes : List UInt8) : List UInt8 :=
  match result with
  | none => []
  | some count => bytes.take count

def Writable (result : Option Nat) (bytes : List UInt8) : Prop := ∀ count, result = some count → count ≤ bytes.length

instance (result : Option Nat) (bytes : List UInt8) : Decidable (Writable result bytes) :=
  inferInstanceAs (Decidable (∀ count, result = some count → _))

def Packet.stamp (packet : Packet) (index : BitVec 64) : Packet :=
  {packet with header := {packet.header with requestIndex := index}}

-- The send queue with the request indices by socket.
structure SendQueue where
  queue : List (Nat × Packet)
  requestIndices : Nat → BitVec 64

-- One round of the loop of __comm_thread_send up to the write: what is left, the socket's
-- index and the packet as it is written.
def dequeueStamped (map : LocalityMap) (q : SendQueue) : Option (SendQueue × Nat × Packet) :=
  match q.queue with
  | [] => none
  | (pe,packet) :: rest => do
    let entry ← map pe
    let index := q.requestIndices entry.index + 1
    return (⟨rest,Function.update q.requestIndices entry.index index⟩,entry.index,packet.stamp index)

-- The sending side. Ghosts: `enqueued`, the packets that comm_remote_put enqueued for each
-- PE, and `freed`, each packet that was written once and freed, with the result of write.
structure Sender where
  queue : SendQueue
  accepted : Nat → List UInt8
  enqueued : Nat → List Packet
  freed : List (Packet × Option Nat)

inductive SendEvent where
  | put (pe : Nat) (dest : BitVec 64) (src : Source) (prior : BitVec 64)
  | send (result : Option Nat)
deriving DecidableEq

def Sender.step (job : Job) (me : Nat) (s : Sender) : SendEvent → Option Sender
  | .put pe dest src prior =>
    if pe ∈ job.remotes me then
      let packet := putPacket me dest src prior
      some {s with
        queue := {s.queue with queue := s.queue.queue ++ [(pe,packet)]}
        enqueued := Function.update s.enqueued pe (s.enqueued pe ++ [packet])}
    else none
  | .send result => do
    let (queue,index,packet) ← dequeueStamped (job.localityMap me) s.queue
    if Writable result packet.bytes then
      some {s with
        queue := queue
        accepted := Function.update s.accepted index (s.accepted index ++ networkSend result packet.bytes)
        freed := s.freed ++ [(packet,result)]}
    else none

def senders (job : Job) (me : Nat) : Guarded.Machine Sender SendEvent := ⟨Sender.step job me⟩

def Sender.start : Sender := ⟨⟨[],fun _ => 0⟩,fun _ => [],fun _ => [],[]⟩

-- The packets for one peer as they have to be written: numbered from 1.
def stampFrom (index : BitVec 64) : List Packet → List Packet
  | [] => []
  | packet :: rest => packet.stamp (index + 1) :: stampFrom (index + 1) rest

structure Lossless (job : Job) (me : Nat) (s : Sender) : Prop where
  ordered : ∀ pe ∈ job.remotes me, s.accepted ((job.remotes me).idxOf pe) <+:
    (stampFrom 0 (s.enqueued pe)).flatMap Packet.bytes
  whole : ∀ entry ∈ s.freed, entry.2 = some entry.1.bytes.length

-- The write accepts the whole packet at the front of the queue.
def WholeWrite (s : Sender) : SendEvent → Prop
  | .put _ _ _ _ => True
  | .send result => ∀ pe packet rest, s.queue.queue = (pe,packet) :: rest → result = some packet.bytes.length

instance (s : Sender) : (event : SendEvent) → Decidable (WholeWrite s event)
  | .put _ _ _ _ => inferInstanceAs (Decidable True)
  | .send result =>
    match front : s.queue.queue with
    | [] => isTrue fun _ _ _ queued => by rw [front] at queued; cases queued
    | (pe,packet) :: rest => decidable_of_iff (result = some packet.bytes.length)
      ⟨fun whole _ _ _ queued => by rw [front] at queued; cases queued; exact whole,
        fun whole => whole pe packet rest front⟩

variable {job : Job} {me pe : Nat} {s t : Sender} {event : SendEvent}

@[simp] theorem Packet.data_stamp (packet : Packet) (index : BitVec 64) : (packet.stamp index).data = packet.data := rfl

@[simp] theorem Packet.length_stamp (packet : Packet) (index : BitVec 64) :
    (packet.stamp index).bytes.length = packet.bytes.length := by
  simp [Packet.stamp]

@[simp] theorem length_stampFrom (index : BitVec 64) (packets : List Packet) :
    (stampFrom index packets).length = packets.length := by
  induction packets generalizing index with
  | nil => rfl
  | cons packet rest ih => simp [stampFrom,ih]

theorem stampFrom_append (index : BitVec 64) (first second : List Packet) :
    stampFrom index (first ++ second) =
      stampFrom index first ++ stampFrom (index + BitVec.ofNat 64 first.length) second := by
  induction first generalizing index with
  | nil => simp [stampFrom]
  | cons packet rest ih =>
    simp only [List.cons_append,stampFrom,ih,List.length_cons]
    congr 3
    apply BitVec.eq_of_toNat_eq
    simp
    omega

theorem stampFrom_prefix (index : BitVec 64) (first second : List Packet) :
    (stampFrom index first).flatMap Packet.bytes <+: (stampFrom index (first ++ second)).flatMap Packet.bytes := by
  rw [stampFrom_append,List.flatMap_append]
  exact List.prefix_append _ _

-- For each peer: the packets gone are numbered and accepted whole, and the others queued.
def Sent (job : Job) (me : Nat) (s : Sender) : Prop :=
  ∀ pe ∈ job.remotes me, ∃ gone, s.enqueued pe = gone ++ (s.queue.queue.filter (·.1 = pe)).map Prod.snd ∧
    s.accepted ((job.remotes me).idxOf pe) = (stampFrom 0 gone).flatMap Packet.bytes ∧
    s.queue.requestIndices ((job.remotes me).idxOf pe) = BitVec.ofNat 64 gone.length

theorem dequeue_cases {q : SendQueue} (ran : dequeueStamped map q = some (q',index,stamped)) :
    ∃ pe packet entry, q.queue = (pe,packet) :: q'.queue ∧ map pe = some entry ∧ index = entry.index ∧
      stamped = packet.stamp (q.requestIndices entry.index + 1) ∧
      q'.requestIndices = Function.update q.requestIndices entry.index (q.requestIndices entry.index + 1) := by
  unfold dequeueStamped at ran
  split at ran
  · cases ran
  · rename_i pe packet rest queued
    obtain ⟨entry,found,made⟩ := Option.bind_eq_some_iff.mp ran
    cases made
    exact ⟨pe,packet,entry,queued,found,rfl,rfl,rfl⟩

theorem networkSend_whole (bytes : List UInt8) : networkSend (some bytes.length) bytes = bytes := by
  simp [networkSend]

theorem send_sent (sent : Sent job me s) (queued : ∀ entry ∈ s.queue.queue, entry.1 ∈ job.remotes me)
    (whole : WholeWrite s event) (moved : s.step job me event = some t) :
    Sent job me t ∧ ∀ entry ∈ t.queue.queue, entry.1 ∈ job.remotes me := by
  cases event with
  | put pe dest src prior =>
    simp only [Sender.step] at moved
    split at moved
    · rename_i remote
      cases moved
      constructor
      · intro peer there
        obtain ⟨gone,enqueued,accepted,indices⟩ := sent peer there
        refine ⟨gone,?_,accepted,indices⟩
        by_cases here : peer = pe
        · subst peer
          simp [enqueued]
        · simp [here,Ne.symm here,enqueued]
      · intro entry member
        rcases List.mem_append.mp member with old | new
        · exact queued entry old
        · cases List.mem_singleton.mp new
          exact remote
    · cases moved
  | send result =>
    obtain ⟨⟨queue,index,stamped⟩,ran,made⟩ := Option.bind_eq_some_iff.mp moved
    obtain ⟨pe,packet,entry,front,found,rfl,rfl,indices'⟩ := dequeue_cases ran
    simp only at made
    split at made
    · cases made
      have remote := queued (pe,packet) (by rw [front]; exact List.mem_cons_self)
      obtain ⟨inside,other⟩ := Job.mem_remotes.mp remote
      obtain ⟨again,also,_,index⟩ := job.index_eq inside other
      rw [found] at also
      cases also
      have full := whole pe packet queue.queue front
      subst full
      constructor
      · intro peer there
        obtain ⟨gone,enqueued,accepted,indices⟩ := sent peer there
        rw [front] at enqueued
        by_cases here : peer = pe
        · subst peer
          have stamped : networkSend (some packet.bytes.length) (packet.stamp (s.queue.requestIndices entry.index + 1)).bytes =
              (packet.stamp (s.queue.requestIndices entry.index + 1)).bytes := by
            rw [← Packet.length_stamp packet (s.queue.requestIndices entry.index + 1)]
            exact networkSend_whole _
          refine ⟨gone ++ [packet],by simpa using enqueued,?_,?_⟩
          · dsimp only
            rw [stampFrom_append,List.flatMap_append,← accepted,← index,Function.update_self,stamped,index,indices]
            simp [stampFrom]
          · dsimp only
            rw [indices',← index,Function.update_self,index,indices]
            apply BitVec.eq_of_toNat_eq
            simp
        · have apart : (job.remotes me).idxOf peer ≠ entry.index := by
            intro same
            rw [index] at same
            exact here ((List.idxOf_inj there).mp same)
          refine ⟨gone,by simpa [Ne.symm here] using enqueued,?_,?_⟩
          · dsimp only
            rw [Function.update_of_ne apart]
            exact accepted
          · rw [indices',Function.update_of_ne apart]
            exact indices
      · intro entry member
        exact queued entry (by rw [front]; exact List.mem_cons_of_mem _ member)
    · cases made

-- The record of a freed packet tells whether its only write was whole.
theorem freed_whole (moved : s.step job me event = some t) :
    (∀ entry ∈ t.freed, entry.2 = some entry.1.bytes.length) ↔
      (∀ entry ∈ s.freed, entry.2 = some entry.1.bytes.length) ∧ WholeWrite s event := by
  cases event with
  | put pe dest src prior =>
    simp only [Sender.step] at moved
    split at moved
    · cases moved
      exact ⟨fun whole => ⟨whole,trivial⟩,And.left⟩
    · cases moved
  | send result =>
    obtain ⟨⟨queue,index,stamped⟩,ran,made⟩ := Option.bind_eq_some_iff.mp moved
    obtain ⟨pe,packet,entry,front,found,rfl,rfl,_⟩ := dequeue_cases ran
    simp only at made
    split at made
    · cases made
      constructor
      · intro whole
        refine ⟨fun old member => whole old (List.mem_append_left _ member),?_⟩
        intro pe' packet' rest queued
        rw [front] at queued
        cases queued
        have last := whole _ (List.mem_append_right _ (List.mem_singleton.mpr rfl))
        simpa using last
      · intro ⟨old,here⟩ record member
        rcases List.mem_append.mp member with before | new
        · exact old record before
        · cases List.mem_singleton.mp new
          simpa using here pe packet queue.queue front
    · cases made

theorem run_freed (ran : (senders job me).run s events = some t) :
    (∀ entry ∈ t.freed, entry.2 = some entry.1.bytes.length) ↔
      (∀ entry ∈ s.freed, entry.2 = some entry.1.bytes.length) ∧ (senders job me).Meets WholeWrite s events := by
  let safe (s : Sender) : Prop := ∀ entry ∈ s.freed, entry.2 = some entry.1.bytes.length
  have tells : ∀ s event t, True → (senders job me).step s event = some t → (safe t ↔ safe s ∧ WholeWrite s event) :=
    fun _ _ _ _ moved => freed_whole moved
  exact Guarded.Machine.run_iff (fun _ _ _ _ _ => trivial) tells trivial ran

-- The bytes that a peer's socket accepts are its packets in order, none of them cut short,
-- if and only if every write accepts the whole packet.
theorem lossless_iff (job : Job) (me : Nat) (events : List SendEvent)
    (ran : (senders job me).run Sender.start events = some s) :
    Lossless job me s ↔ (senders job me).Meets WholeWrite Sender.start events := by
  have none : ∀ entry ∈ Sender.start.freed, entry.2 = some entry.1.bytes.length := by
    intro entry member
    cases member
  constructor
  · intro lossless
    exact ((run_freed ran).mp lossless.whole).2
  · intro meets
    have steps : ∀ s event t, (Sent job me s ∧ ∀ entry ∈ s.queue.queue, entry.1 ∈ job.remotes me) → WholeWrite s event →
        (senders job me).step s event = some t → Sent job me t ∧ ∀ entry ∈ t.queue.queue, entry.1 ∈ job.remotes me := by
      intro s event t both whole moved
      exact send_sent both.1 both.2 whole moved
    have start : Sent job me Sender.start ∧ ∀ entry ∈ Sender.start.queue.queue, entry.1 ∈ job.remotes me := by
      refine ⟨fun pe there => ⟨[],rfl,rfl,rfl⟩,?_⟩
      intro entry member
      cases member
    obtain ⟨sent,_⟩ := Guarded.Machine.run_keeps steps start meets ran
    refine ⟨?_,(run_freed ran).mpr ⟨none,meets⟩⟩
    intro pe there
    obtain ⟨gone,enqueued,accepted,_⟩ := sent pe there
    rw [accepted,enqueued]
    exact stampFrom_prefix 0 gone _

-- Two packets for one peer, written whole.
theorem lossless_iff_two : ∃ s, (senders twoHosts 0).run Sender.start
    [.put 1 64 ⟨[7,8,9],by decide⟩ 5,.put 1 8 ⟨[1],by decide⟩ 6,.send (some 32),.send (some 30)] = some s ∧
    Lossless twoHosts 0 s := by
  let events : List SendEvent :=
    [.put 1 64 ⟨[7,8,9],by decide⟩ 5,.put 1 8 ⟨[1],by decide⟩ 6,.send (some 32),.send (some 30)]
  obtain ⟨s,ran⟩ := Option.isSome_iff_exists.mp
    (by decide +kernel : ((senders twoHosts 0).run Sender.start events).isSome)
  exact ⟨s,ran,(lossless_iff twoHosts 0 events ran).mpr (by decide +kernel)⟩

-- The socket takes 30 of the 32 bytes, and the other two are freed with the packet.
theorem packet_cut_short :
    ¬ ∀ (job : Job) (me : Nat) (events : List SendEvent) (s : Sender),
      (senders job me).run Sender.start events = some s → Lossless job me s := by
  intro claim
  let events : List SendEvent := [.put 1 64 ⟨[7,8,9],by decide⟩ 5,.send (some 30)]
  have freed : ((senders twoHosts 0).run Sender.start events).map
      (fun s => s.freed.map fun entry => (entry.1.bytes.length,entry.2)) = some [(32,some 30)] := by decide +kernel
  obtain ⟨s,ran,records⟩ := Option.map_eq_some_iff.mp freed
  have whole := (claim twoHosts 0 events s ran).whole
  have listed : ∀ record ∈ s.freed.map (fun entry => (entry.1.bytes.length,entry.2)), record.2 = some record.1 := by
    intro record member
    obtain ⟨entry,there,same⟩ := List.mem_map.mp member
    subst same
    exact whole entry there
  rw [records] at listed
  exact absurd listed (by decide)

end OpenShmem
