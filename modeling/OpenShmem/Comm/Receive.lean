import OpenShmem.Comm.Packet
import OpenShmem.Library.Machine
import Mathlib.Data.List.Infix
import Mathlib.Logic.Function.Basic

namespace OpenShmem

-- read(): none is -1, with nothing consumed. What the memory and the stream hold then.
def networkReceive (result : Option Nat) (memory stream : List UInt8) : List UInt8 × List UInt8 :=
  match result with
  | none => (memory,stream)
  | some count => (stream.take count ++ memory.drop count,stream.drop count)

-- A read returns -1 or some of the bytes that are there, at least one if one was asked for.
def Readable (result : Option Nat) (requested : Nat) (stream : List UInt8) : Prop :=
  ∀ count, result = some count → count ≤ requested ∧ count ≤ stream.length ∧ (0 < requested → 0 < count)

instance (result : Option Nat) (requested : Nat) (stream : List UInt8) : Decidable (Readable result requested stream) :=
  inferInstanceAs (Decidable (∀ count, result = some count → _))

-- The results of the two reads of one round, and what malloc(size) held for the second.
structure Reads where
  header : Option Nat
  payload : Option Nat
  prior : List UInt8
deriving DecidableEq, Repr

-- One round of the loop of __comm_thread_receive: the packet buffer, the socket's stream
-- and the job handed to work_put_remote. The result of the second read is not looked at.
def receiveSocket (me : Nat) (packetBuf stream : List UInt8) (reads : Reads) :
    Option (List UInt8 × List UInt8 × Option WorkJob) :=
  if ¬ Readable reads.header packetSize stream then none
  else match reads.header with
  | none => some (packetBuf,stream,none)
  | some bytesRead =>
    let (packetBuf,stream) := networkReceive (some bytesRead) packetBuf stream
    if bytesRead = 0 then some (packetBuf,stream,none)
    else if bytesRead ≠ packetSize then some (packetBuf,stream,none)
    else
      let header := Header.read packetBuf
      if reads.prior.length = header.size.toNat ∧ Readable reads.payload header.size.toNat stream then
        let (data,stream) := networkReceive reads.payload reads.prior stream
        some (packetBuf,stream,some ⟨header.handler,me,header.origin,header.heapOffset,.buffer data,header.size⟩)
      else none

-- The receiving side of the communication thread. `handed` lists what was handed to
-- work_put_remote, with the socket it came from.
structure Receiver where
  packetBuf : List UInt8
  streams : Nat → List UInt8
  handed : List (Nat × WorkJob)

def Receiver.visit (me : Nat) (s : Receiver) (visit : Nat × Reads) : Option Receiver :=
  (receiveSocket me s.packetBuf (s.streams visit.1) visit.2).map fun (packetBuf,stream,job) =>
    ⟨packetBuf,Function.update s.streams visit.1 stream,s.handed ++ (job.map (visit.1,·)).toList⟩

def receivers (me : Nat) : Guarded.Machine Receiver (Nat × Reads) := ⟨Receiver.visit me⟩

def visits (nRemote : Nat) (reads : Nat → Reads) : List (Nat × Reads) :=
  (List.range nRemote).map fun i => (i,reads i)

-- One call of __comm_thread_receive visits every socket once.
def commThreadReceive (me nRemote : Nat) (s : Receiver) (reads : Nat → Reads) : Option Receiver :=
  (receivers me).run s (visits nRemote reads)

def passes (me nRemote : Nat) : Guarded.Machine Receiver (Nat → Reads) := ⟨commThreadReceive me nRemote⟩

-- The two reads find nothing at all, or all that they ask for.
def WholeReads (stream : List UInt8) (reads : Reads) : Prop :=
  reads.header = none ∨ (reads.header = some packetSize ∧
    reads.payload = some (Header.read (stream.take packetSize)).size.toNat)

instance (stream : List UInt8) (reads : Reads) : Decidable (WholeReads stream reads) :=
  inferInstanceAs (Decidable (_ ∨ _))

def WholePass (me nRemote : Nat) (s : Receiver) (reads : Nat → Reads) : Prop :=
  (receivers me).Meets (fun s visit => WholeReads (s.streams visit.1) visit.2) s (visits nRemote reads)

instance (me nRemote : Nat) (s : Receiver) (reads : Nat → Reads) : Decidable (WholePass me nRemote s reads) :=
  inferInstanceAs (Decidable ((receivers me).Meets _ s _))

variable {me nRemote : Nat} {packetBuf stream : List UInt8} {reads : Reads} {s t : Receiver}

-- A round with whole reads takes one packet off the stream, or nothing.
theorem receive_whole {packets : List Packet} (framed : stream = packets.flatMap Packet.bytes)
    (whole : WholeReads stream reads)
    (ran : receiveSocket me packetBuf stream reads = some (packetBuf',stream',job)) :
    (job = none ∧ stream' = stream) ∨
    ∃ packet rest, packets = packet :: rest ∧ job = some (packet.job me) ∧ stream' = rest.flatMap Packet.bytes := by
  unfold receiveSocket at ran
  by_cases readable : Readable reads.header packetSize stream
  · rw [if_neg (fun not => not readable)] at ran
    rcases whole with absent | ⟨full,payload⟩
    · rw [absent] at ran
      cases ran
      exact Or.inl ⟨rfl,rfl⟩
    · rw [full] at ran readable
      obtain ⟨_,enough,_⟩ := readable packetSize rfl
      cases packets with
      | nil =>
        subst framed
        exact absurd enough (by decide)
      | cons packet rest =>
        refine Or.inr ⟨packet,rest,rfl,?_⟩
        have front : stream = packet.header.bytes ++ (packet.data ++ rest.flatMap Packet.bytes) := by
          rw [framed,List.flatMap_cons,Packet.bytes,List.append_assoc]
        have headLength : packet.header.bytes.length = packetSize := packet.header.length_bytes
        have taken : stream.take packetSize = packet.header.bytes := by
          rw [front,← headLength,List.take_left]
        have dropped : stream.drop packetSize = packet.data ++ rest.flatMap Packet.bytes := by
          rw [front,← headLength,List.drop_left]
        have again : Header.read packet.header.bytes = packet.header := by
          simpa using packet.header.read_bytes []
        rw [taken,again] at payload
        simp only [networkReceive,taken,dropped,packet.header.read_bytes,payload] at ran
        rw [if_neg (by decide),if_neg (fun not => not rfl)] at ran
        split at ran
        · rename_i both
          cases ran
          have short : reads.prior.length ≤ packet.data.length := by
            rw [both.1,packet.sized]
          rw [← packet.sized,List.take_left,List.drop_left,List.drop_of_length_le short,List.append_nil]
          exact ⟨by simp only [Packet.job],rfl⟩
        · cases ran
  · rw [if_pos readable] at ran
    cases ran

def Receiver.from (s : Receiver) (i : Nat) : List WorkJob := (s.handed.filter (·.1 = i)).map Prod.snd

-- Each socket's packets so far are handed on, and the rest is what its stream holds.
def Framed (me : Nat) (sent : Nat → List Packet) (s : Receiver) : Prop :=
  ∀ i, ∃ done rest, sent i = done ++ rest ∧ s.from i = done.map (Packet.job me) ∧
    s.streams i = rest.flatMap Packet.bytes

theorem visit_framed {sent : Nat → List Packet} (framed : Framed me sent s)
    (whole : WholeReads (s.streams visit.1) visit.2) (moved : s.visit me visit = some t) : Framed me sent t := by
  obtain ⟨⟨packetBuf,stream,job⟩,ran,same⟩ := Option.map_eq_some_iff.mp moved
  subst t
  intro i
  obtain ⟨done,rest,split,handed,stream_eq⟩ := framed i
  by_cases here : visit.1 = i
  · subst i
    rcases receive_whole stream_eq whole ran with ⟨rfl,rfl⟩ | ⟨packet,later,rfl,rfl,rfl⟩
    · refine ⟨done,rest,split,?_,?_⟩
      · simpa [Receiver.from] using handed
      · simpa using stream_eq
    · refine ⟨done ++ [packet],later,by simp [split],?_,by simp⟩
      unfold Receiver.from at handed ⊢
      simp only [Option.map_some,Option.toList_some,List.filter_append,List.map_append,handed]
      simp
  · refine ⟨done,rest,split,?_,?_⟩
    · unfold Receiver.from at handed ⊢
      have none : (job.map (visit.1,·)).toList.filter (·.1 = i) = [] := by
        cases job <;> simp [here]
      simp only [List.filter_append,none,List.append_nil]
      exact handed
    · simpa [Ne.symm here] using stream_eq

theorem pass_framed {sent : Nat → List Packet} {reads : Nat → Reads} (framed : Framed me sent s)
    (whole : WholePass me nRemote s reads) (moved : commThreadReceive me nRemote s reads = some t) :
    Framed me sent t :=
  Guarded.Machine.run_keeps (fun _ _ _ => visit_framed) framed whole moved

def Receiver.start (packetBuf : List UInt8) (sent : Nat → List Packet) : Receiver :=
  ⟨packetBuf,fun i => (sent i).flatMap Packet.bytes,[]⟩

-- Passes whose reads are whole hand on each socket's packets in order, and all of them once
-- the stream is empty.
theorem packets_handed_on (me nRemote : Nat) (packetBuf : List UInt8) (sent : Nat → List Packet)
    (schedule : List (Nat → Reads))
    (meets : (passes me nRemote).Meets (WholePass me nRemote) (Receiver.start packetBuf sent) schedule)
    (ran : (passes me nRemote).run (Receiver.start packetBuf sent) schedule = some s) (i : Nat) :
    s.from i <+: (sent i).map (Packet.job me) ∧
      (s.streams i = [] → s.from i = (sent i).map (Packet.job me)) := by
  have start : Framed me sent (Receiver.start packetBuf sent) := fun i => ⟨[],sent i,rfl,rfl,rfl⟩
  obtain ⟨done,rest,split,handed,stream⟩ :=
    Guarded.Machine.run_keeps (fun _ _ _ => pass_framed) start meets ran i
  rw [handed,split,List.map_append]
  refine ⟨List.prefix_append _ _,?_⟩
  intro empty
  have consumed : rest = [] := by
    cases rest with
    | nil => rfl
    | cons packet later =>
      have length := congrArg List.length (stream.symm.trans empty)
      simp [packetSize] at length
  simp [consumed]

def twoSockets : Nat → List Packet
  | 0 => [putPacket 0 64 ⟨[7,8,9],by decide⟩ 5,putPacket 0 72 ⟨[1,2],by decide⟩ 5]
  | 1 => [putPacket 2 80 ⟨[4],by decide⟩ 5]
  | _ => []

-- The second pass finds a packet on either socket and leaves nothing behind.
theorem packets_handed_on_two : ∃ s, (passes 1 2).run (Receiver.start [] twoSockets)
    [fun i => if i = 0 then ⟨some 29,some 3,[0,0,0]⟩ else ⟨none,none,[]⟩,
      fun i => if i = 0 then ⟨some 29,some 2,[0,0]⟩ else ⟨some 29,some 1,[0]⟩] = some s ∧
    s.from 0 = (twoSockets 0).map (Packet.job 1) ∧ s.from 1 = (twoSockets 1).map (Packet.job 1) := by
  let schedule : List (Nat → Reads) := [fun i => if i = 0 then ⟨some 29,some 3,[0,0,0]⟩ else ⟨none,none,[]⟩,
    fun i => if i = 0 then ⟨some 29,some 2,[0,0]⟩ else ⟨some 29,some 1,[0]⟩]
  have emptied : ((passes 1 2).run (Receiver.start [] twoSockets) schedule).map (fun s => (s.streams 0,s.streams 1)) =
      some ([],[]) := by decide +kernel
  have meets : (passes 1 2).Meets (WholePass 1 2) (Receiver.start [] twoSockets) schedule := by decide +kernel
  obtain ⟨s,ran,streams⟩ := Option.map_eq_some_iff.mp emptied
  obtain ⟨first,second⟩ := Prod.mk.inj streams
  exact ⟨s,ran,(packets_handed_on 1 2 [] twoSockets schedule meets ran 0).2 first,
    (packets_handed_on 1 2 [] twoSockets schedule meets ran 1).2 second⟩

-- The header is there and its payload is not: the buffer is handed on as malloc gave it.
theorem payload_not_found :
    ¬ ∀ (me nRemote : Nat) (packetBuf : List UInt8) (sent : Nat → List Packet) (schedule : List (Nat → Reads))
      (s : Receiver), (passes me nRemote).run (Receiver.start packetBuf sent) schedule = some s →
      ∀ i, s.from i <+: (sent i).map (Packet.job me) ∧
        (s.streams i = [] → s.from i = (sent i).map (Packet.job me)) := by
  intro claim
  let sent : Nat → List Packet := fun i => if i = 0 then [putPacket 0 64 ⟨[7,8,9],by decide⟩ 5] else []
  let schedule : List (Nat → Reads) := [fun _ => ⟨some 29,none,[1,1,1]⟩]
  have handed : ((passes 1 1).run (Receiver.start [] sent) schedule).map (fun s => s.from 0) =
      some [⟨0,1,0,64,.buffer [1,1,1],3⟩] := by decide +kernel
  obtain ⟨s,ran,jobs⟩ := Option.map_eq_some_iff.mp handed
  have first := (claim 1 1 [] sent schedule s ran 0).1
  rw [jobs] at first
  exact absurd first (by decide +kernel)

end OpenShmem
