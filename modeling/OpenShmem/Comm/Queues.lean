import OpenShmem.Comm.System
import OpenShmem.Library.LinkedQueue

namespace OpenShmem
open LinkedQueue

-- __work_thread_enqueue and __work_thread_dequeue. The free of the node is commented out.
def workThreadEnqueue (q : Queue Nat WorkJob) (new : Nat) (job : WorkJob) : Option (Queue Nat WorkJob) := enqueue q new job
def workThreadDequeue (q : Queue Nat WorkJob) : Option (Queue Nat WorkJob × Option WorkJob) := dequeue false q

-- __comm_thread_enqueue and __comm_thread_dequeue, which gives the PE back through a pointer.
def commThreadEnqueue (q : Queue Nat (Nat × Packet)) (new pe : Nat) (packet : Packet) : Option (Queue Nat (Nat × Packet)) :=
  enqueue q new (pe,packet)
def commThreadDequeue (q : Queue Nat (Nat × Packet)) : Option (Queue Nat (Nat × Packet) × Option (Nat × Packet)) :=
  dequeue true q

def workQueue : Code Nat WorkJob := ⟨workThreadEnqueue,workThreadDequeue⟩
def sendQueue : Code Nat (Nat × Packet) := ⟨fun q new entry => commThreadEnqueue q new entry.1 entry.2,commThreadDequeue⟩

-- The queues that the steps of the three threads take as lists.
theorem workQueue_list {pe : Pe} (represents : Represents q pe.workQueue) :
    (∀ new job, q.nodes new = none → ∃ q', workThreadEnqueue q new job = some q' ∧ Represents q' (pe.workQueue ++ [job])) ∧
      ∃ q', workThreadDequeue q = some (q',pe.workQueue.head?) ∧ Represents q' pe.workQueue.tail :=
  ⟨fun _ job free => represents.enqueue free job,represents.dequeue false⟩

theorem sendQueue_list {sends : SendQueue} (represents : Represents q sends.queue) :
    (∀ new pe packet, q.nodes new = none →
      ∃ q', commThreadEnqueue q new pe packet = some q' ∧ Represents q' (sends.queue ++ [(pe,packet)])) ∧
      ∃ q', commThreadDequeue q = some (q',sends.queue.head?) ∧ Represents q' sends.queue.tail :=
  ⟨fun _ pe packet free => represents.enqueue free (pe,packet),represents.dequeue true⟩

-- Whatever threads enqueue and dequeue, in whatever order, both are FIFO queues throughout.
theorem queues_fifo :
    (∀ operations s, (histories workQueue).run History.start operations = some s → LinkedQueue.Fifo workQueue s) ∧
    ∀ operations s, (histories sendQueue).run History.start operations = some s → LinkedQueue.Fifo sendQueue s := by
  constructor
  · intro operations s ran
    exact run_fifo ran
  · intro operations s ran
    exact run_fifo ran

-- Two threads enqueue and two dequeue. All entries have come out, so that a dequeue gets NULL.
theorem queues_fifo_drained : ∃ s t, (histories workQueue).run History.start
      [.enqueue 0 ((putPacket 0 64 ⟨[7,8,9],by decide⟩ 5).job 1) 64,.enqueue 1 ((putPacket 2 72 ⟨[4],by decide⟩ 5).job 1) 96,
        .dequeue 2,.enqueue 0 ((putPacket 0 80 ⟨[],by decide⟩ 5).job 1) 128,.dequeue 3,.dequeue 2] = some s ∧
    (∃ q, workThreadDequeue s.queue = some (q,none)) ∧
    (histories sendQueue).run History.start
      [.enqueue 0 (1,putPacket 0 64 ⟨[7,8,9],by decide⟩ 5) 64,.dequeue 1,.enqueue 0 (2,putPacket 0 72 ⟨[4],by decide⟩ 5) 64,
        .dequeue 1] = some t ∧ ∃ q, commThreadDequeue t.queue = some (q,none) := by
  let jobs : List (Operation Nat WorkJob) := [.enqueue 0 ((putPacket 0 64 ⟨[7,8,9],by decide⟩ 5).job 1) 64,
    .enqueue 1 ((putPacket 2 72 ⟨[4],by decide⟩ 5).job 1) 96,.dequeue 2,
    .enqueue 0 ((putPacket 0 80 ⟨[],by decide⟩ 5).job 1) 128,.dequeue 3,.dequeue 2]
  let packets : List (Operation Nat (Nat × Packet)) := [.enqueue 0 (1,putPacket 0 64 ⟨[7,8,9],by decide⟩ 5) 64,.dequeue 1,
    .enqueue 0 (2,putPacket 0 72 ⟨[4],by decide⟩ 5) 64,.dequeue 1]
  have worked : ((histories workQueue).run History.start jobs).map (fun s => decide (s.returned = s.enqueued)) = some true := by
    decide +kernel
  have sent : ((histories sendQueue).run History.start packets).map (fun t => decide (t.returned = t.enqueued)) = some true := by
    decide +kernel
  obtain ⟨s,ran,same⟩ := Option.map_eq_some_iff.mp worked
  obtain ⟨t,ran',same'⟩ := Option.map_eq_some_iff.mp sent
  obtain ⟨q,result,taken,null⟩ := (queues_fifo.1 jobs s ran).null
  obtain ⟨q',result',taken',null'⟩ := (queues_fifo.2 packets t ran').null
  cases null.mpr (of_decide_eq_true same)
  cases null'.mpr (of_decide_eq_true same')
  exact ⟨s,t,ran,⟨q,taken⟩,ran',q',taken'⟩

end OpenShmem
