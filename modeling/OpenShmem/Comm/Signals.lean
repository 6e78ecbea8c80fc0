import OpenShmem.Comm.BarrierRounds
import OpenShmem.Comm.Pipeline

namespace OpenShmem
open ByteMemory (memcpy)

-- A range of the heap beside __pSync, where an application's data goes.
def Cluster.Apart (cluster : Cluster) (dest : BitVec 64) (size : Nat) : Prop :=
  dest.toNat + size ≤ cluster.pSync ∨ cluster.pSync + 4 * cluster.n ≤ dest.toNat

instance (cluster : Cluster) (dest : BitVec 64) (size : Nat) : Decidable (cluster.Apart dest size) :=
  inferInstanceAs (Decidable (_ ∨ _))

-- The application's puts stay beside __pSync.
def Beside (cluster : Cluster) : Event → Prop
  | .put _ dest src _ _ => cluster.Apart dest src.bytes.length
  | .putNbi _ dest size _ => cluster.Apart dest size.toNat
  | _ => True

instance (cluster : Cluster) : (event : Event) → Decidable (Beside cluster event)
  | .put _ dest src _ _ => inferInstanceAs (Decidable (cluster.Apart dest src.bytes.length))
  | .putNbi _ dest size _ => inferInstanceAs (Decidable (cluster.Apart dest size.toNat))
  | .sync _ _ => inferInstanceAs (Decidable True)
  | .dequeue _ => inferInstanceAs (Decidable True)
  | .execute _ _ _ => inferInstanceAs (Decidable True)
  | .send _ _ => inferInstanceAs (Decidable True)
  | .receive _ _ _ => inferInstanceAs (Decidable True)

-- The slots in use: PE 0 has one for each other PE, and each other PE has its own.
def Used (n pe slot : Nat) : Prop := 0 < slot ∧ slot < n ∧ (pe = 0 ∨ pe = slot)

-- The PE that signals on a slot: 0 and q signal each other on slot q.
def signaller (pe slot : Nat) : Nat := slot - pe

def Update.put (update : Update) : RemotePut := ⟨update.origin,update.heap,update.dest,update.bytes,update.round⟩

-- The puts of i for k in their order, whichever way they go.
def System.puts (cluster : Cluster) (s : System) (i k : Nat) : List RemotePut :=
  if cluster.node i = cluster.node k then (s.updates i k).map Update.put else s.calls i k

def System.sent (cluster : Cluster) (s : System) (pe slot : Nat) : Nat :=
  (s.puts cluster (signaller pe slot) pe).countP (·.dest = cluster.slotOffset slot)
def System.got (cluster : Cluster) (s : System) (pe slot : Nat) : Nat :=
  (s.updates (signaller pe slot) pe).countP (·.dest = cluster.slotOffset slot)

def Barrier.put (b : Barrier) (pe slot : Nat) : Nat := if pe = 0 then b.arrived slot else b.released slot

-- What comm_remote_put and comm_local_put are called with for another PE.
def Tame (cluster : Cluster) (i k : Nat) (dest : BitVec 64) (bytes : List UInt8) : Prop :=
  cluster.Apart dest bytes.length ∨
    ∃ slot, Used cluster.n k slot ∧ i = signaller k slot ∧ dest = cluster.slotOffset slot ∧ bytes = (intBytes 1).bytes

-- The system with its queues and sockets does what the barrier with its flights does.
structure Abstracts (cluster : Cluster) (s : System) (b : Barrier) : Prop where
  pc : ∀ p, b.pc p = (s.pes p).pc
  calls : ∀ p, b.calls p = (s.pes p).calls
  returns : ∀ p, b.returns p = (s.pes p).returns
  slots : ∀ pe slot, Used cluster.n pe slot → b.pSync pe slot = s.slots cluster pe slot
  flights : ∀ pe slot, Used cluster.n pe slot → b.inFlight pe slot + s.got cluster pe slot = s.sent cluster pe slot
  sent : ∀ pe slot, Used cluster.n pe slot → s.sent cluster pe slot = b.put pe slot

-- The jobs that a PE made itself write beside the slots.
def Calm (cluster : Cluster) (s : System) : Prop :=
  ∀ me < cluster.n, ∀ job ∈ (s.pes me).jobs, job.originPe = BitVec.ofNat 32 me → cluster.Apart job.dest job.size.toNat

structure Signalled (cluster : Cluster) (s : System) : Prop extends Piped cluster s where
  calm : Calm cluster s
  tame : ∀ i k, Peers cluster.toJob i k → ∀ put ∈ s.calls i k, Tame cluster i k put.dest put.bytes
  barrier : ∃ b, Abstracts cluster s b ∧ Balanced cluster.n b ∧ Tagged cluster.n b

variable {cluster : Cluster} {s t : System} {me pe slot i k : Nat}

theorem Used.inside (used : Used cluster.n pe slot) : pe < cluster.n := by
  obtain ⟨above,below,zero | same⟩ := used
  · omega
  · omega

theorem slotOffset_toNat (inside : slot < cluster.n) :
    (cluster.slotOffset slot).toNat = cluster.pSync + 4 * slot := by
  have roomy := cluster.roomy
  unfold Cluster.slotOffset
  rw [BitVec.toNat_ofNat]
  exact Nat.mod_eq_of_lt (by omega)

theorem Cluster.Apart.other (apart : cluster.Apart dest size) (above : 0 < slot) (below : slot < cluster.n) :
    dest ≠ cluster.slotOffset slot := by
  intro same
  have place := slotOffset_toNat below
  subst same
  unfold Cluster.Apart at apart
  omega

theorem intBytes_length (value : BitVec 32) : (intBytes value).bytes.length = 4 := LittleEndian.length_bytes

theorem readInt_intBytes (heap : Nat → UInt8) (address : Nat) (value : BitVec 32) :
    readInt (memcpy heap address (intBytes value).bytes) address = value := by
  have whole : ByteMemory.read (memcpy heap address (intBytes value).bytes) address (intBytes value).bytes.length =
      (intBytes value).bytes := ByteMemory.read_memcpy
  rw [intBytes_length] at whole
  unfold readInt
  rw [whole]
  exact LittleEndian.word_bytes value (by decide)

theorem readInt_outside (apart : address + 4 ≤ dest ∨ dest + bytes.length ≤ address) :
    readInt (memcpy heap dest bytes) address = readInt heap address := by
  unfold readInt
  rw [ByteMemory.read_outside apart]

section Fields
variable (actor origin heap : Nat) (dest : BitVec 64) (bytes : List UInt8)

-- What a write does to the slots.
theorem slots_write_apart (apart : cluster.Apart dest bytes.length) (inside : slot < cluster.n) :
    (s.write actor origin heap dest bytes).slots cluster pe slot = s.slots cluster pe slot := by
  unfold System.slots
  rw [heaps_write]
  by_cases here : pe = heap
  · subst pe
    rw [Function.update_self]
    unfold Cluster.Apart at apart
    exact readInt_outside (by omega)
  · rw [Function.update_of_ne here]

theorem slots_write_int (value : BitVec 32) (written : slot < cluster.n) (read : other < cluster.n) :
    (s.write actor origin heap (cluster.slotOffset slot) (intBytes value).bytes).slots cluster pe other =
      if heap = pe ∧ slot = other then value else s.slots cluster pe other := by
  have place := slotOffset_toNat written
  unfold System.slots
  rw [heaps_write]
  by_cases here : pe = heap
  · subst pe
    rw [Function.update_self,place]
    by_cases same : slot = other
    · subst other
      rw [if_pos ⟨rfl,rfl⟩]
      exact readInt_intBytes _ _ _
    · rw [if_neg fun both => same both.2]
      apply readInt_outside
      rw [intBytes_length]
      omega
  · rw [Function.update_of_ne here,if_neg fun both => here both.1.symm]

end Fields

theorem got_write (actor origin heap : Nat) (dest : BitVec 64) (bytes : List UInt8) :
    (s.write actor origin heap dest bytes).got cluster pe slot = s.got cluster pe slot +
      if origin = signaller pe slot ∧ heap = pe ∧ dest = cluster.slotOffset slot then 1 else 0 := by
  unfold System.got
  rw [updates_write,List.countP_append]
  by_cases here : origin = signaller pe slot ∧ heap = pe
  · simp [here,List.countP_cons]
  · rw [if_neg here,if_neg fun all => here ⟨all.1,all.2.1⟩]
    rfl

theorem puts_write (near : cluster.node me = cluster.node pe) (dest : BitVec 64) (bytes : List UInt8) :
    (s.write me me pe dest bytes).puts cluster i k = s.puts cluster i k ++
      if me = i ∧ pe = k then [⟨me,pe,dest,bytes,(s.pes me).calls⟩] else [] := by
  unfold System.puts
  by_cases same : cluster.node i = cluster.node k
  · rw [if_pos same,if_pos same,updates_write,List.map_append]
    by_cases here : me = i ∧ pe = k
    · rw [if_pos here,if_pos here]
      rfl
    · rw [if_neg here,if_neg here]
      rfl
  · have apart : ¬ (me = i ∧ pe = k) := by
      intro ⟨first,second⟩
      subst first second
      exact same near
    rw [if_neg same,if_neg same,if_neg apart,List.append_nil]
    rfl

theorem puts_enqueue (other : cluster.node me ≠ cluster.node pe) (dest : BitVec 64) (src : Source) (prior : BitVec 64) :
    (s.enqueue me pe dest src prior).puts cluster i k = s.puts cluster i k ++
      if me = i ∧ pe = k then [⟨me,pe,dest,src.bytes,(s.pes me).calls⟩] else [] := by
  unfold System.puts
  by_cases same : cluster.node i = cluster.node k
  · have apart : ¬ (me = i ∧ pe = k) := by
      intro ⟨first,second⟩
      subst first second
      exact other same
    rw [if_pos same,if_pos same,if_neg apart,List.append_nil]
    rfl
  · rw [if_neg same,if_neg same,calls_enqueue]

-- A put enters the list of its pair, whichever way it goes.
theorem puts_commPut (wired : cluster.WiredUp) (ran : s.commPut cluster me me dest src pe prior = some t) :
    t.puts cluster i k = s.puts cluster i k ++
      if me = i ∧ pe = k then [⟨me,pe,dest,src.bytes,(s.pes me).calls⟩] else [] := by
  obtain ⟨_,⟨near,rfl⟩ | ⟨other,rfl⟩⟩ := commPut_cases wired ran
  · exact puts_write near dest src.bytes
  · exact puts_enqueue other dest src prior

theorem sent_commPut (wired : cluster.WiredUp) (ran : s.commPut cluster me me dest src pe prior = some t) (target : Nat) :
    t.sent cluster target slot = s.sent cluster target slot +
      if me = signaller target slot ∧ pe = target ∧ dest = cluster.slotOffset slot then 1 else 0 := by
  unfold System.sent
  rw [puts_commPut wired ran,List.countP_append]
  by_cases here : me = signaller target slot ∧ pe = target
  · simp [here,List.countP_cons]
  · rw [if_neg here,if_neg fun all => here ⟨all.1,all.2.1⟩]
    rfl

-- A fetched put is in the list of its pair already.
theorem puts_apply (peers : Peers cluster.toJob i me) (dest : BitVec 64) (bytes : List UInt8) :
    (s.write me i me dest bytes).puts cluster a b = s.puts cluster a b := by
  unfold System.puts
  by_cases same : cluster.node a = cluster.node b
  · have apart : ¬ (i = a ∧ me = b) := by
      intro ⟨first,second⟩
      subst first second
      exact peers.2.2 same
    rw [if_pos same,if_pos same,updates_write,if_neg apart,List.append_nil]
  · rw [if_neg same,if_neg same]
    rfl

theorem commPut_thread (ran : s.commPut cluster me origin dest src pe prior = some t) (p : Nat) :
    (t.pes p).pc = (s.pes p).pc ∧ (t.pes p).calls = (s.pes p).calls ∧ (t.pes p).returns = (s.pes p).returns ∧
      (t.pes p).jobs = (s.pes p).jobs := by
  obtain ⟨_,⟨_,_,_,_,_,rfl⟩ | ⟨_,rfl⟩⟩ := commPut_moves ran
  · exact ⟨rfl,rfl,rfl,rfl⟩
  · unfold System.enqueue
    by_cases here : p = me
    · subst p
      simp [Pe.jobs]
    · simp [here]

-- Steps that leave the puts, the heaps and the application threads alone.
theorem Abstracts.congr (abstracts : Abstracts cluster s b)
    (thread : ∀ p, (t.pes p).pc = (s.pes p).pc ∧ (t.pes p).calls = (s.pes p).calls ∧ (t.pes p).returns = (s.pes p).returns)
    (slots : ∀ pe slot, Used cluster.n pe slot → t.slots cluster pe slot = s.slots cluster pe slot)
    (sent : ∀ pe slot, Used cluster.n pe slot → t.sent cluster pe slot = s.sent cluster pe slot)
    (got : ∀ pe slot, Used cluster.n pe slot → t.got cluster pe slot = s.got cluster pe slot) : Abstracts cluster t b := by
  refine ⟨?_,?_,?_,?_,?_,?_⟩
  · intro p
    rw [(thread p).1]
    exact abstracts.pc p
  · intro p
    rw [(thread p).2.1]
    exact abstracts.calls p
  · intro p
    rw [(thread p).2.2]
    exact abstracts.returns p
  · intro pe slot used
    rw [slots pe slot used]
    exact abstracts.slots pe slot used
  · intro pe slot used
    rw [got pe slot used,sent pe slot used]
    exact abstracts.flights pe slot used
  · intro pe slot used
    rw [sent pe slot used]
    exact abstracts.sent pe slot used

theorem Abstracts.data (wired : cluster.WiredUp) (abstracts : Abstracts cluster s b)
    (apart : cluster.Apart dest src.bytes.length) (ran : s.commPut cluster me me dest src pe prior = some t) : Abstracts cluster t b := by
  have thread := commPut_thread ran
  have beside : ∀ target slot, Used cluster.n target slot →
      ¬ (me = signaller target slot ∧ pe = target ∧ dest = cluster.slotOffset slot) := by
    intro target slot used all
    exact apart.other used.1 used.2.1 all.2.2
  apply abstracts.congr
  · intro p
    exact ⟨(thread p).1,(thread p).2.1,(thread p).2.2.1⟩
  · intro target slot used
    obtain ⟨_,⟨_,rfl⟩ | ⟨_,rfl⟩⟩ := commPut_cases wired ran
    · exact slots_write_apart _ _ _ _ _ apart used.2.1
    · rfl
  · intro target slot used
    rw [sent_commPut wired ran,if_neg (beside target slot used),Nat.add_zero]
  · intro target slot used
    obtain ⟨_,⟨_,rfl⟩ | ⟨_,rfl⟩⟩ := commPut_cases wired ran
    · rw [got_write,if_neg (beside target slot used),Nat.add_zero]
    · rfl

theorem Used.signaller_ne (used : Used n pe slot) : signaller pe slot ≠ pe := by
  obtain ⟨above,_,zero | same⟩ := used
  · unfold signaller
    omega
  · unfold signaller
    omega

theorem Used.ext (used : Used n pe slot) (also : Used n pe other) (same : signaller pe slot = signaller pe other) :
    slot = other := by
  obtain ⟨above,_,zero | here⟩ := used
  · obtain ⟨above',_,zero' | here'⟩ := also
    · unfold signaller at same
      omega
    · omega
  · obtain ⟨above',_,zero' | here'⟩ := also
    · omega
    · omega

theorem slotOffset_inj (here : slot < cluster.n) (there : other < cluster.n)
    (same : cluster.slotOffset slot = cluster.slotOffset other) : slot = other := by
  have first := slotOffset_toNat here
  have second := slotOffset_toNat there
  rw [same,second] at first
  omega

-- What a step of comm_barrier_all puts and clears is a slot in use.
structure Signals (n me : Nat) (b : Barrier) (next : Pc) (effect : Effect) : Prop where
  zero : ∀ slot, effect = .zero slot → Used n me slot
  signal : ∀ pe slot, effect = .signal pe slot → Used n pe slot ∧ me = signaller pe slot
  put : ∀ pe slot, Used n pe slot →
    (b.perform me next effect).put pe slot = b.put pe slot + if effect = .signal pe slot then 1 else 0

theorem root_signals (balanced : Balanced n b) (positive : 0 < n)
    (moved : commBarrierAll n 0 (b.pSync 0) (b.pc 0) = some (next,effect)) : Signals n 0 b next effect := by
  have moves := root_moves balanced.root (balanced.busy 0 positive) moved
  obtain ⟨here,count,_⟩ := perform_self (s := b) 0 next effect
  refine ⟨?_,?_,?_⟩
  · intro slot zero
    have place := balanced.root
    rw [moves.zero slot zero] at place
    exact ⟨place.1,place.2,Or.inl rfl⟩
  · intro pe slot signal
    obtain ⟨same,pc⟩ := moves.signal pe slot signal
    have place := balanced.root
    rw [pc] at place
    subst slot
    exact ⟨⟨place.1,place.2,Or.inr rfl⟩,(Nat.sub_self pe).symm⟩
  · intro pe slot used
    unfold Barrier.put
    by_cases zero : pe = 0
    · have quiet : effect ≠ .signal pe slot := by
        intro signal
        have same := (moves.signal pe slot signal).1
        have above := used.1
        omega
      obtain ⟨pc,calls,_⟩ := perform_others (s := b) 0 next effect slot (Nat.ne_of_gt used.1)
      rw [if_pos zero,if_pos zero,if_neg quiet]
      unfold Barrier.arrived
      rw [pc,calls,Nat.add_zero]
    · have same : pe = slot := used.2.2.resolve_left zero
      subst slot
      rw [if_neg zero,if_neg zero]
      unfold Barrier.released
      rw [here,count]
      exact moves.released pe used.1 used.2.1

theorem peer_signals (balanced : Balanced n b) (other : 0 < me) (inside : me < n)
    (moved : commBarrierAll n me (b.pSync me) (b.pc me) = some (next,effect)) : Signals n me b next effect := by
  have moves := peer_moves other (balanced.peers me other inside) (balanced.busy me inside) moved
  obtain ⟨here,count,_⟩ := perform_self (s := b) me next effect
  have there := perform_others (s := b) me next effect
  refine ⟨?_,?_,?_⟩
  · intro slot zero
    obtain ⟨same,_⟩ := moves.zero slot zero
    subst slot
    exact ⟨other,inside,Or.inr rfl⟩
  · intro pe slot signal
    obtain ⟨zero,same,_⟩ := moves.signal pe slot signal
    subst pe slot
    exact ⟨⟨other,inside,Or.inl rfl⟩,rfl⟩
  · intro pe slot used
    unfold Barrier.put
    by_cases zero : pe = 0
    · subst pe
      rw [if_pos rfl,if_pos rfl]
      unfold Barrier.arrived
      by_cases same : slot = me
      · subst slot
        rw [here,count]
        exact moves.arrived
      · have quiet : effect ≠ .signal 0 slot := fun signal => same (moves.signal 0 slot signal).2.1
        rw [(there slot same).1,(there slot same).2.1,if_neg quiet,Nat.add_zero]
    · have quiet : effect ≠ .signal pe slot := fun signal => zero (moves.signal pe slot signal).1
      rw [if_neg zero,if_neg zero,if_neg quiet]
      unfold Barrier.released
      rw [(there 0 (Nat.ne_of_lt other)).1,(there 0 (Nat.ne_of_lt other)).2.1,Nat.add_zero]

-- The barrier reads only slots in use.
theorem commBarrierAll_congr (balanced : Balanced n b) (inside : me < n) {slots : Nat → BitVec 32}
    (same : ∀ slot, Used n me slot → b.pSync me slot = slots slot) :
    commBarrierAll n me slots (b.pc me) = commBarrierAll n me (b.pSync me) (b.pc me) := by
  by_cases zero : me = 0
  · subst me
    have place := balanced.root
    cases pc : b.pc 0 with
    | collect i =>
      rw [pc] at place
      simp only [commBarrierAll]
      rw [same i ⟨place.1,place.2,Or.inl rfl⟩]
    | await =>
      rw [pc] at place
      cases place
    | _ => rfl
  · have place := balanced.peers me (Nat.pos_of_ne_zero zero) inside
    cases pc : b.pc me with
    | collect i =>
      rw [pc] at place
      cases place
    | await =>
      simp only [commBarrierAll]
      rw [same me ⟨Nat.pos_of_ne_zero zero,inside,Or.inr rfl⟩]
    | _ => rfl

theorem perform_thread (ran : s.perform cluster me prior effect = some t) (p : Nat) :
    (t.pes p).pc = (s.pes p).pc ∧ (t.pes p).calls = (s.pes p).calls + (if p = me then effect.calls else 0) ∧
      (t.pes p).returns = (s.pes p).returns + (if p = me then effect.returns else 0) ∧
      (t.pes p).jobs = (s.pes p).jobs := by
  cases effect with
  | nothing =>
    cases ran
    simp [Effect.calls,Effect.returns]
  | call =>
    cases ran
    by_cases here : p = me
    · subst p
      simp [Effect.calls,Effect.returns,Pe.jobs]
    · simp [here]
  | ret =>
    cases ran
    by_cases here : p = me
    · subst p
      simp [Effect.calls,Effect.returns,Pe.jobs]
    · simp [here]
  | zero slot =>
    cases ran
    simp [Effect.calls,Effect.returns,System.write]
  | signal pe slot =>
    obtain ⟨pc,calls,returns,jobs⟩ := commPut_thread ran p
    simp [Effect.calls,Effect.returns,pc,calls,returns,jobs]

theorem perform_barrier (abstracts : Abstracts cluster s b)
    (ran : (s.setPe me {s.pes me with pc := next}).perform cluster me prior effect = some t) (p : Nat) :
    (b.perform me next effect).pc p = (t.pes p).pc ∧ (b.perform me next effect).calls p = (t.pes p).calls ∧
      (b.perform me next effect).returns p = (t.pes p).returns := by
  obtain ⟨pc,calls,returns,_⟩ := perform_thread ran p
  rw [pc,calls,returns]
  by_cases here : p = me
  · subst p
    obtain ⟨pc,calls,returns⟩ := perform_self (s := b) me next effect
    rw [pc,calls,returns,abstracts.calls,abstracts.returns]
    simp
  · obtain ⟨pc,calls,returns⟩ := perform_others (s := b) me next effect p here
    rw [pc,calls,returns,abstracts.pc,abstracts.calls,abstracts.returns]
    simp [here]

theorem signal_iff (used : Used cluster.n pe slot) (put : me = signaller pe slot) (also : Used cluster.n target other) :
    (me = signaller target other ∧ pe = target ∧ cluster.slotOffset slot = cluster.slotOffset other) ↔
      pe = target ∧ slot = other := by
  constructor
  · intro ⟨_,here,offset⟩
    exact ⟨here,slotOffset_inj used.2.1 also.2.1 offset⟩
  · intro ⟨here,same⟩
    subst target other
    exact ⟨put,rfl,rfl⟩

-- A signal is put: it flies, or it lands at once if its PE is on the node.
theorem signal_abstracts (wired : cluster.WiredUp) (abstracts : Abstracts cluster s b) (balanced : Balanced cluster.n (b.perform me next (.signal pe slot)))
    (tagged : Tagged cluster.n (b.perform me next (.signal pe slot))) (signals : Signals cluster.n me b next (.signal pe slot))
    (ran : (s.setPe me {s.pes me with pc := next}).perform cluster me prior (.signal pe slot) = some t) :
    ∃ b', Abstracts cluster t b' ∧ Balanced cluster.n b' ∧ Tagged cluster.n b' := by
  have threads := perform_barrier abstracts ran
  obtain ⟨used,put⟩ := signals.signal pe slot rfl
  have sent : ∀ target other, Used cluster.n target other → t.sent cluster target other = s.sent cluster target other +
      if pe = target ∧ slot = other then 1 else 0 := by
    intro target other also
    rw [sent_commPut wired ran target]
    simp only [signal_iff used put also]
    rfl
  have flights : ∀ target other, (b.perform me next (.signal pe slot)).inFlight target other = b.inFlight target other +
      if pe = target ∧ slot = other then 1 else 0 := by
    intro target other
    rw [perform_inFlight]
    simp only [Effect.signal.injEq]
  have puts : ∀ target other, Used cluster.n target other → t.sent cluster target other =
      (b.perform me next (.signal pe slot)).put target other := by
    intro target other also
    rw [sent target other also,signals.put target other also,abstracts.sent target other also]
    simp only [Effect.signal.injEq]
  have quiet : ∀ target other, (b.perform me next (.signal pe slot)).pSync target other = b.pSync target other :=
    fun _ _ => rfl
  obtain ⟨_,⟨_,landed⟩ | ⟨_,queued⟩⟩ := commPut_cases wired ran
  · let flight : Flight := ⟨pe,slot,b.calls me⟩
    have member : flight ∈ (b.perform me next (.signal pe slot)).flights :=
      List.mem_append_right _ (List.mem_singleton.mpr rfl)
    refine ⟨(b.perform me next (.signal pe slot)).deliver flight,?_,?_,?_⟩
    · refine ⟨fun p => (threads p).1,fun p => (threads p).2.1,fun p => (threads p).2.2,?_,?_,?_⟩
      · intro target other also
        rw [deliver_pSync,quiet,landed,abstracts.slots target other also]
        rw [slots_write_int _ _ _ _ used.2.1 also.2.1]
        rfl
      · intro target other also
        have before := abstracts.flights target other also
        have delivered : ((b.perform me next (.signal pe slot)).deliver flight).inFlight target other +
            (if pe = target ∧ slot = other then 1 else 0) =
              b.inFlight target other + if pe = target ∧ slot = other then 1 else 0 := by
          rw [← flights]
          exact deliver_inFlight member target other
        have sent := sent target other also
        have got : t.got cluster target other = s.got cluster target other + if pe = target ∧ slot = other then 1 else 0 := by
          rw [landed,got_write]
          simp only [signal_iff used put also]
          rfl
        omega
      · exact puts
    · exact deliver_balanced balanced (tagged.flights flight member) member
    · exact deliver_tagged balanced tagged member
  · refine ⟨b.perform me next (.signal pe slot),⟨fun p => (threads p).1,fun p => (threads p).2.1,
      fun p => (threads p).2.2,?_,?_,puts⟩,balanced,tagged⟩
    · intro target other also
      rw [quiet,queued,abstracts.slots target other also]
      rfl
    · intro target other also
      have before := abstracts.flights target other also
      have sent := sent target other also
      have got : t.got cluster target other = s.got cluster target other := by
        rw [queued]
        rfl
      rw [flights]
      omega

theorem sync_agreed (abstracts : Abstracts cluster s b) (balanced : Balanced cluster.n b) (inside : me < cluster.n)
    (moved : commBarrierAll cluster.n me (s.slots cluster me) (s.pes me).pc = some (next,effect)) :
    commBarrierAll cluster.n me (b.pSync me) (b.pc me) = some (next,effect) := by
  rw [← commBarrierAll_congr balanced inside (abstracts.slots me),abstracts.pc]
  exact moved

theorem sync_signals (abstracts : Abstracts cluster s b) (balanced : Balanced cluster.n b) (inside : me < cluster.n)
    (moved : commBarrierAll cluster.n me (s.slots cluster me) (s.pes me).pc = some (next,effect)) :
    Signals cluster.n me b next effect := by
  have agreed := sync_agreed abstracts balanced inside moved
  by_cases zero : me = 0
  · subst me
    exact root_signals balanced inside agreed
  · exact peer_signals balanced (Nat.pos_of_ne_zero zero) inside agreed

theorem sync_abstracts (wired : cluster.WiredUp) (abstracts : Abstracts cluster s b) (balanced : Balanced cluster.n b)
    (tagged : Tagged cluster.n b) (inside : me < cluster.n)
    (moved : commBarrierAll cluster.n me (s.slots cluster me) (s.pes me).pc = some (next,effect))
    (ran : (s.setPe me {s.pes me with pc := next}).perform cluster me prior effect = some t) :
    ∃ b', Abstracts cluster t b' ∧ Balanced cluster.n b' ∧ Tagged cluster.n b' := by
  have agreed := sync_agreed abstracts balanced inside moved
  have stepped : b.step cluster.n (.advance me) = some (b.perform me next effect) := by
    simp only [Barrier.step]
    rw [if_pos inside,agreed]
    rfl
  obtain ⟨balanced',tagged'⟩ := step_balanced ⟨balanced,tagged⟩ stepped
  have signals := sync_signals abstracts balanced inside moved
  have threads := perform_barrier abstracts ran
  -- Outside of a signal nothing is put or applied on a channel.
  have still : (∀ pe slot, effect ≠ .signal pe slot) → (∀ pe slot, Used cluster.n pe slot →
      (b.perform me next effect).pSync pe slot = t.slots cluster pe slot) →
      (∀ pe slot, Used cluster.n pe slot → t.sent cluster pe slot = s.sent cluster pe slot) →
      (∀ pe slot, Used cluster.n pe slot → t.got cluster pe slot = s.got cluster pe slot) →
      Abstracts cluster t (b.perform me next effect) := by
    intro quiet slots sent got
    refine ⟨fun p => (threads p).1,fun p => (threads p).2.1,fun p => (threads p).2.2,slots,?_,?_⟩
    · intro pe slot used
      rw [perform_inFlight,if_neg (quiet pe slot),Nat.add_zero,sent pe slot used,got pe slot used]
      exact abstracts.flights pe slot used
    · intro pe slot used
      rw [signals.put pe slot used,if_neg (quiet pe slot),Nat.add_zero,sent pe slot used]
      exact abstracts.sent pe slot used
  cases effect with
  | signal pe slot => exact signal_abstracts wired abstracts balanced' tagged' signals ran
  | zero slot =>
    refine ⟨_,still (by simp) ?_ ?_ ?_,balanced',tagged'⟩
    · intro pe other used
      cases ran
      have mine := signals.zero slot rfl
      rw [slots_write_int _ _ _ _ mine.2.1 used.2.1]
      by_cases here : pe = me
      · subst pe
        rw [perform_here]
        by_cases same : slot = other
        · simp [same]
        · simp only [Effect.zero.injEq,same,and_false,if_false]
          exact abstracts.slots me other used
      · rw [perform_other _ _ _ _ _ here,if_neg fun both => here both.1.symm]
        exact abstracts.slots pe other used
    · intro pe other used
      cases ran
      unfold System.sent
      rw [puts_write rfl,if_neg,List.append_nil]
      · rfl
      · intro both
        exact used.signaller_ne (both.1.symm.trans both.2)
    · intro pe other used
      cases ran
      rw [got_write,if_neg,Nat.add_zero]
      · rfl
      · intro both
        exact used.signaller_ne (both.1.symm.trans both.2.1)
  | nothing =>
    cases ran
    exact ⟨_,still (by simp) abstracts.slots (fun _ _ _ => rfl) (fun _ _ _ => rfl),balanced',tagged'⟩
  | call =>
    cases ran
    exact ⟨_,still (by simp) abstracts.slots (fun _ _ _ => rfl) (fun _ _ _ => rfl),balanced',tagged'⟩
  | ret =>
    cases ran
    exact ⟨_,still (by simp) abstracts.slots (fun _ _ _ => rfl) (fun _ _ _ => rfl),balanced',tagged'⟩

-- A fetched job lands: data beside the slots, or the signal that flies there.
theorem apply_abstracts (abstracts : Abstracts cluster s b) (balanced : Balanced cluster.n b)
    (tagged : Tagged cluster.n b) (peers : Peers cluster.toJob i me) (tame : Tame cluster i me dest bytes)
    (waiting : ∀ slot, Used cluster.n me slot → i = signaller me slot → dest = cluster.slotOffset slot →
      s.got cluster me slot < s.sent cluster me slot) :
    ∃ b', Abstracts cluster ((s.setPe me {s.pes me with busy := none}).write me i me dest bytes) b' ∧
      Balanced cluster.n b' ∧ Tagged cluster.n b' := by
  have thread : ∀ p, (((s.setPe me {s.pes me with busy := none}).write me i me dest bytes).pes p).pc = (s.pes p).pc ∧
      (((s.setPe me {s.pes me with busy := none}).write me i me dest bytes).pes p).calls = (s.pes p).calls ∧
      (((s.setPe me {s.pes me with busy := none}).write me i me dest bytes).pes p).returns = (s.pes p).returns := by
    intro p
    by_cases here : p = me
    · subst p
      simp [System.write]
    · simp [System.write,here]
  have sent : ∀ pe slot, ((s.setPe me {s.pes me with busy := none}).write me i me dest bytes).sent cluster pe slot =
      s.sent cluster pe slot := by
    intro pe slot
    unfold System.sent
    rw [puts_apply peers]
    rfl
  rcases tame with apart | ⟨slot,used,put,rfl,rfl⟩
  · refine ⟨b,abstracts.congr thread ?_ (fun pe slot _ => sent pe slot) ?_,balanced,tagged⟩
    · intro pe slot used
      rw [slots_write_apart _ _ _ _ _ apart used.2.1]
      rfl
    · intro pe slot used
      rw [got_write,if_neg,Nat.add_zero]
      · rfl
      · intro both
        exact apart.other used.1 used.2.1 both.2.2
  · have flying : 0 < b.inFlight me slot := by
      have flights := abstracts.flights me slot used
      have late := waiting slot used put rfl
      omega
    obtain ⟨flight,member,place⟩ := List.countP_pos_iff.mp flying
    simp only [decide_eq_true_eq] at place
    obtain ⟨here,lane⟩ := place
    refine ⟨b.deliver flight,?_,deliver_balanced balanced (tagged.flights flight member) member,
      deliver_tagged balanced tagged member⟩
    refine ⟨?_,?_,?_,?_,?_,?_⟩
    · intro p
      rw [(thread p).1]
      exact abstracts.pc p
    · intro p
      rw [(thread p).2.1]
      exact abstracts.calls p
    · intro p
      rw [(thread p).2.2]
      exact abstracts.returns p
    · intro pe other also
      rw [deliver_pSync,here,lane,slots_write_int _ _ _ _ used.2.1 also.2.1,abstracts.slots pe other also]
      rfl
    · intro pe other also
      have before := abstracts.flights pe other also
      have delivered := deliver_inFlight member pe other
      rw [here,lane] at delivered
      have got : ((s.setPe me {s.pes me with busy := none}).write me i me (cluster.slotOffset slot)
          (intBytes 1).bytes).got cluster pe other = s.got cluster pe other +
            if me = pe ∧ slot = other then 1 else 0 := by
        rw [got_write]
        simp only [signal_iff used put also]
        rfl
      rw [sent,got]
      omega
    · intro pe other also
      rw [sent]
      exact abstracts.sent pe other also

-- What a PE fetched is among the calls of its origin, after those that were applied.
theorem Flow.fetched (flow : Flow i me s) (member : job ∈ s.fetched i me) :
    job.written ∈ (s.calls i me).map RemotePut.written ∧
      (s.updates i me).countP (·.dest = job.dest) < (s.calls i me).countP (·.dest = job.dest) := by
  obtain ⟨packets,_,_,ordered⟩ := flow
  constructor
  · rw [ordered]
    apply List.mem_append_right
    apply List.mem_append_left
    exact List.mem_map_of_mem member
  · have puts := List.countP_map (p := fun written : BitVec 64 × List UInt8 => decide (written.1 = job.dest))
      (f := RemotePut.written) (l := s.calls i me)
    have updates := List.countP_map (p := fun written : BitVec 64 × List UInt8 => decide (written.1 = job.dest))
      (f := Update.written) (l := s.updates i me)
    have fetched := List.countP_map (p := fun written : BitVec 64 × List UInt8 => decide (written.1 = job.dest))
      (f := WorkJob.written) (l := s.fetched i me)
    have one : 0 < (s.fetched i me).countP ((fun written : BitVec 64 × List UInt8 => decide (written.1 = job.dest)) ∘
        WorkJob.written) := List.countP_pos_iff.mpr ⟨job,member,by simp [WorkJob.written]⟩
    rw [ordered,List.countP_append,List.countP_append] at puts
    rw [updates,fetched] at puts
    change (s.updates i me).countP (fun update => decide (update.written.1 = job.dest)) <
      (s.calls i me).countP (fun put => decide (put.written.1 = job.dest))
    simp only [Function.comp_def] at puts one
    omega

theorem tame_commPut (tame : ∀ i k, Peers cluster.toJob i k → ∀ put ∈ s.calls i k, Tame cluster i k put.dest put.bytes)
    (new : Tame cluster me pe dest src.bytes) (ran : s.commPut cluster me me dest src pe prior = some t) :
    ∀ i k, Peers cluster.toJob i k → ∀ put ∈ t.calls i k, Tame cluster i k put.dest put.bytes := by
  obtain ⟨_,⟨_,_,_,_,_,rfl⟩ | ⟨_,rfl⟩⟩ := commPut_moves ran
  · exact tame
  · intro a b peers put member
    rw [calls_enqueue] at member
    rcases List.mem_append.mp member with old | fresh
    · exact tame a b peers put old
    · split at fresh
      · rename_i here
        obtain ⟨rfl,rfl⟩ := here
        cases List.mem_singleton.mp fresh
        exact new
      · cases fresh

theorem Calm.congr (calm : Calm cluster s) (jobs : ∀ p, (t.pes p).jobs = (s.pes p).jobs) : Calm cluster t := by
  intro p below job member own
  rw [jobs] at member
  exact calm p below job member own

theorem Calm.setPe (calm : Calm cluster s)
    (jobs : me < cluster.n → ∀ job ∈ entry.jobs, job ∈ (s.pes me).jobs ∨
      (job.originPe = BitVec.ofNat 32 me → cluster.Apart job.dest job.size.toNat)) : Calm cluster (s.setPe me entry) := by
  intro p below job member own
  by_cases here : p = me
  · subst p
    simp only [pes_setPe,Function.update_self] at member
    rcases jobs below job member with old | apart
    · exact calm me below job old own
    · exact apart own
  · simp only [pes_setPe,Function.update_of_ne here] at member
    exact calm p below job member own

theorem setPe_thread {entry : Pe} (pc : entry.pc = (s.pes me).pc) (calls : entry.calls = (s.pes me).calls)
    (returns : entry.returns = (s.pes me).returns) (p : Nat) : ((s.setPe me entry).pes p).pc = (s.pes p).pc ∧
      ((s.setPe me entry).pes p).calls = (s.pes p).calls ∧ ((s.setPe me entry).pes p).returns = (s.pes p).returns := by
  by_cases here : p = me
  · subst p
    simp [pc,calls,returns]
  · simp [here]

-- Steps of the worker's and the communication thread's queues.
theorem Abstracts.setPe (abstracts : Abstracts cluster s b) {entry : Pe} (pc : entry.pc = (s.pes me).pc)
    (calls : entry.calls = (s.pes me).calls) (returns : entry.returns = (s.pes me).returns) :
    Abstracts cluster (s.setPe me entry) b :=
  abstracts.congr (setPe_thread pc calls returns) (fun _ _ _ => rfl) (fun _ _ _ => rfl) fun _ _ _ => rfl

theorem Signalled.sync (signalled : Signalled cluster s) (piped : Piped cluster t) (inside : me < cluster.n)
    (moved : commBarrierAll cluster.n me (s.slots cluster me) (s.pes me).pc = some (next,effect))
    (ran : (s.setPe me {s.pes me with pc := next}).perform cluster me prior effect = some t) : Signalled cluster t := by
  obtain ⟨b,abstracts,balanced,tagged⟩ := signalled.barrier
  refine ⟨piped,?_,?_,sync_abstracts signalled.wired abstracts balanced tagged inside moved ran⟩
  · have before : Calm cluster (s.setPe me {s.pes me with pc := next}) :=
      signalled.calm.setPe fun _ job member => Or.inl member
    exact before.congr fun p => (perform_thread ran p).2.2.2
  · cases effect with
    | signal pe slot =>
      obtain ⟨used,put⟩ := (sync_signals abstracts balanced inside moved).signal pe slot rfl
      have tame : Tame cluster me pe (cluster.slotOffset slot) (intBytes 1).bytes := Or.inr ⟨slot,used,put,rfl,rfl⟩
      exact tame_commPut (s := s.setPe me {s.pes me with pc := next}) signalled.tame tame ran
    | zero slot =>
      cases ran
      exact signalled.tame
    | nothing =>
      cases ran
      exact signalled.tame
    | call =>
      cases ran
      exact signalled.tame
    | ret =>
      cases ran
      exact signalled.tame

theorem Signalled.execute (signalled : Signalled cluster s) (piped : Piped cluster t) (inside : me < cluster.n)
    (busy : (s.pes me).busy = some job)
    (ran : (s.setPe me {s.pes me with busy := none}).execute cluster me job contents prior = some t) :
    Signalled cluster t := by
  obtain ⟨b,abstracts,balanced,tagged⟩ := signalled.barrier
  have jobs := jobs_busy busy
  have member : job ∈ (s.pes me).jobs := by
    rw [jobs]
    exact List.mem_cons_self
  have calm : Calm cluster (s.setPe me {s.pes me with busy := none}) := by
    apply signalled.calm.setPe
    intro _ other rest
    rw [jobs]
    exact Or.inl (List.mem_cons_of_mem _ rest)
  rcases execute_cases signalled.toPiped inside busy ran with ⟨own,src,size,put⟩ | ⟨i,bytes,peers,made,rfl⟩
  · have apart : cluster.Apart job.dest src.bytes.length := by
      rw [size]
      exact signalled.calm me inside job member own.2.1
    refine ⟨piped,calm.congr fun p => (commPut_thread put p).2.2.2,?_,b,?_,balanced,tagged⟩
    · exact tame_commPut (s := s.setPe me {s.pes me with busy := none}) signalled.tame (Or.inl apart) put
    · have finished : Abstracts cluster (s.setPe me {s.pes me with busy := none}) b := abstracts.setPe rfl rfl rfl
      exact finished.data signalled.wired apart put
  · have fetched : job ∈ s.fetched i me := by
      apply List.mem_filter.mpr
      refine ⟨member,?_⟩
      rw [made]
      exact decide_eq_true rfl
    obtain ⟨among,late⟩ := (signalled.flow i me peers).fetched fetched
    obtain ⟨put,called,same⟩ := List.mem_map.mp among
    have written : job.written = (job.dest,bytes) := by
      rw [made]
      rfl
    rw [written] at same
    obtain ⟨dest,data⟩ := Prod.mk.inj same
    have tame : Tame cluster i me job.dest bytes := by
      rw [← dest,← data]
      exact signalled.tame i me peers put called
    refine ⟨piped,calm.congr fun p => rfl,signalled.tame,apply_abstracts abstracts balanced tagged peers tame ?_⟩
    intro slot used origin offset
    unfold System.sent System.got System.puts
    rw [← origin,if_neg peers.2.2,← offset]
    exact late

theorem step_signalled (signalled : Signalled cluster s) (reliable : Reliable cluster s event)
    (found : PayloadFound event) (beside : Beside cluster event) (moved : s.step cluster event = some t) :
    Signalled cluster t := by
  have piped := step_piped signalled.toPiped reliable found moved
  obtain ⟨b,abstracts,balanced,tagged⟩ := signalled.barrier
  unfold System.step at moved
  split at moved
  · rename_i inside
    cases event with
    | put me dest src pe prior =>
      simp only [System.move] at moved
      split at moved
      · have issued : Abstracts cluster (s.issue ⟨me,pe,dest,src.bytes.length,.buffer src.bytes,(s.pes me).calls⟩) b :=
          abstracts.congr (fun _ => ⟨rfl,rfl,rfl⟩) (fun _ _ _ => rfl) (fun _ _ _ => rfl) fun _ _ _ => rfl
        refine ⟨piped,signalled.calm.congr fun p => (commPut_thread moved p).2.2.2,?_,b,issued.data signalled.wired beside moved,
          balanced,tagged⟩
        exact tame_commPut (s := s.issue _) signalled.tame (Or.inl beside) moved
      · cases moved
    | putNbi me dest size pe =>
      simp only [System.move] at moved
      split at moved
      · cases moved
        have issued : Abstracts cluster (s.issue ⟨me,pe,dest,size.toNat,.caller,(s.pes me).calls⟩) b :=
          abstracts.congr (fun _ => ⟨rfl,rfl,rfl⟩) (fun _ _ _ => rfl) (fun _ _ _ => rfl) fun _ _ _ => rfl
        refine ⟨piped,?_,signalled.tame,b,issued.setPe rfl rfl rfl,balanced,tagged⟩
        apply Calm.setPe (signalled.calm.congr fun _ => rfl)
        intro _ job member
        simp only [Pe.jobs,← List.append_assoc] at member
        rcases List.mem_append.mp member with old | new
        · exact Or.inl old
        · cases List.mem_singleton.mp new
          exact Or.inr fun _ => beside
      · cases moved
    | sync me prior =>
      obtain ⟨⟨pc,effect⟩,advanced,performed⟩ := Option.bind_eq_some_iff.mp moved
      exact signalled.sync piped inside advanced performed
    | dequeue me =>
      simp only [System.move] at moved
      split at moved
      · rename_i job rest idle queued
        cases moved
        refine ⟨piped,?_,signalled.tame,b,abstracts.setPe rfl rfl rfl,balanced,tagged⟩
        apply signalled.calm.setPe
        intro _ other member
        left
        simpa [Pe.jobs,idle,queued] using member
      · cases moved
    | execute me contents prior =>
      obtain ⟨job,busy,ran⟩ := Option.bind_eq_some_iff.mp moved
      exact signalled.execute piped inside busy ran
    | send me result =>
      obtain ⟨pe,packet,rest,stamp,indices,front,peers,rfl⟩ := send_cases signalled.toPiped inside reliable moved
      refine ⟨piped,signalled.calm.setPe fun _ job member => Or.inl member,signalled.tame,b,?_,balanced,tagged⟩
      exact abstracts.congr (setPe_thread rfl rfl rfl) (fun _ _ _ => rfl) (fun _ _ _ => rfl) fun _ _ _ => rfl
    | receive me index reads =>
      obtain ⟨peer,buffer,peers,cases⟩ := receive_cases inside reliable found moved
      obtain ⟨packets,streams,made,_⟩ := signalled.flow peer me peers
      rcases cases packets streams with rfl | ⟨packet,rest,rfl,rfl⟩
      · exact ⟨piped,signalled.calm.setPe fun _ job member => Or.inl member,signalled.tame,b,abstracts.setPe rfl rfl rfl,
          balanced,tagged⟩
      · refine ⟨piped,?_,signalled.tame,b,?_,balanced,tagged⟩
        · apply signalled.calm.setPe
          intro _ job member
          simp only [Pe.jobs,← List.append_assoc] at member
          rcases List.mem_append.mp member with old | new
          · exact Or.inl old
          · cases List.mem_singleton.mp new
            refine Or.inr fun own => False.elim ?_
            have origin := (made packet List.mem_cons_self).2
            have same := peNumber_inj peers.1 peers.2.1 (origin.symm.trans own)
            exact peers.2.2 (same ▸ rfl)
        · exact abstracts.congr (setPe_thread rfl rfl rfl) (fun _ _ _ => rfl) (fun _ _ _ => rfl) fun _ _ _ => rfl
  · cases moved

end OpenShmem
