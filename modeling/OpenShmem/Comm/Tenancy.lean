import OpenShmem.Comm.Clients
import OpenShmem.Comm.Collectives
import OpenShmem.Comm.Ordering
import OpenShmem.Memory.Holdings

namespace OpenShmem
open Extents

-- comm_wireup's allocation of __pSync, and then the common program's calls.
def TeamJob.heapCalls (job : TeamJob) (p count : Nat) : List Call := .malloc (4 * job.n) :: job.calls p count

-- The heap of a PE after its first collective calls, with its users' ledger.
def TeamJob.tenancy (job : TeamJob) (p count : Nat) : Option Session :=
  (sessions (job.libc p)).run (Session.start (job.libc p) (job.region p)) (job.heapCalls p count)

-- What is allocated in it, by offset.
def TeamJob.blocks (job : TeamJob) (p count : Nat) : List (Nat × Nat) :=
  ((job.tenancy p count).map Session.holdings).getD []

def InBlock (dest : BitVec 64) (size : Nat) (block : Nat × Nat) : Prop :=
  block.1 ≤ dest.toNat ∧ dest.toNat + size ≤ block.1 + block.2

instance (dest : BitVec 64) (size : Nat) (block : Nat × Nat) : Decidable (InBlock dest size block) :=
  inferInstanceAs (Decidable (_ ∧ _))

-- The common program keeps the heaps' contract on every PE, and never frees __pSync, which
-- comm_wireup takes from the front of the heaps.
structure Managed (job : TeamJob) : Prop extends Matching job where
  positive : 0 < job.n
  front : job.pSync = 0
  room : ∀ p, 4 * job.n ≤ (job.region p).size
  lawful : ∀ p, (sessions (job.libc p)).Meets
    (fun s call => Lawful (job.libc p) s call ∧ call ≠ .free (job.region p).base)
    (Session.start (job.libc p) (job.region p)) (job.heapCalls p job.items.length)

-- The range that an application's put asks for.
def Event.Asks : Event → BitVec 64 → Nat → Prop
  | .put _ dest src _ _,start,size => start = dest ∧ size = src.bytes.length
  | .putNbi _ dest bytes _,start,size => start = dest ∧ size = bytes.toNat
  | _,_,_ => False

-- A range in a block that is allocated in the PE's own heap, other than __pSync's.
def TeamJob.Holds (job : TeamJob) (s : Team) (me : Nat) (dest : BitVec 64) (size : Nat) : Prop :=
  ∃ block ∈ job.blocks me (s.begun me), block.1 ≠ job.pSync ∧ InBlock dest size block

instance (job : TeamJob) (s : Team) (me : Nat) (dest : BitVec 64) (size : Nat) : Decidable (job.Holds s me dest size) :=
  inferInstanceAs (Decidable (∃ block ∈ job.blocks me (s.begun me), _))

def Event.Lands (job : TeamJob) (s : Team) : Event → Prop
  | .put me dest src _ _ => job.Holds s me dest src.bytes.length
  | .putNbi me dest size _ => job.Holds s me dest size.toNat
  | _ => True

instance (job : TeamJob) (s : Team) : (event : Event) → Decidable (event.Lands job s)
  | .put me dest src _ _ => inferInstanceAs (Decidable (job.Holds s me dest src.bytes.length))
  | .putNbi me dest size _ => inferInstanceAs (Decidable (job.Holds s me dest size.toNat))
  | .sync _ _ => inferInstanceAs (Decidable True)
  | .dequeue _ => inferInstanceAs (Decidable True)
  | .execute _ _ _ => inferInstanceAs (Decidable True)
  | .send _ _ => inferInstanceAs (Decidable True)
  | .receive _ _ _ => inferInstanceAs (Decidable True)

-- Puts go into blocks that their own PE holds, and a PE is settled when it calls
-- comm_barrier_all.
def Resident (job : TeamJob) (s : Team) : TeamEvent → Prop
  | .begin _ => True
  | .run event => ((Reliable job.toCluster s.system event ∧ PayloadFound event) ∧ Drained job.toCluster s.system event) ∧
      event.Lands job s

instance (job : TeamJob) (s : Team) : (event : TeamEvent) → Decidable (Resident job s event)
  | .begin _ => inferInstanceAs (Decidable True)
  | .run event => inferInstanceAs (Decidable (((Reliable job.toCluster s.system event ∧ PayloadFound event) ∧
      Drained job.toCluster s.system event) ∧ event.Lands job s))

section Blocks
variable {job : TeamJob} {p count i k : Nat} {op : Collective} {block other : Nat × Nat} {s t : Session}

def TeamJob.client (job : TeamJob) (managed : Managed job) : ClientJob := {job.toCluster with
  linked := job.linked
  libc := job.libc
  region := job.region
  positive := managed.positive
  front := managed.front
  room := managed.room
  clean := managed.clean}

theorem heapCalls_on (job : TeamJob) (p count : Nat) : job.heapCalls p count =
    (.malloc (4 * job.n) :: heapOps (job.items.take count)).map (Collective.on (job.region p).base) := rfl

theorem Managed.tended (managed : Managed job) (within : count ≤ job.items.length) (p : Nat) :
    (sessions (job.libc p)).Meets (fun s call => Lawful (job.libc p) s call ∧ call ≠ .free (job.region p).base)
      (Session.start (job.libc p) (job.region p)) (job.heapCalls p count) := by
  have all := managed.lawful p
  have split : job.heapCalls p job.items.length = job.heapCalls p count ++
      (heapOps ((job.items.drop count).take (job.items.length - count))).map (Collective.on (job.region p).base) := by
    unfold TeamJob.heapCalls
    rw [calls_since within]
    rfl
  rw [split] at all
  exact ((Guarded.Machine.meets_append _ _).mp all).1

theorem Managed.meets (managed : Managed job) (within : count ≤ job.items.length) (p : Nat) :
    (sessions (job.libc p)).Meets (Lawful (job.libc p)) (Session.start (job.libc p) (job.region p)) (job.heapCalls p count) :=
  Guarded.Machine.meets_mono (fun _ _ => And.left) (managed.tended within p)

theorem Managed.tenant (managed : Managed job) (within : count ≤ job.items.length) (p : Nat) :
    ∃ s, job.tenancy p count = some s ∧ Kept s := by
  have moves : ∀ s call, Kept s → Lawful (job.libc p) s call → ∃ t, (sessions (job.libc p)).step s call = some t ∧ Kept t :=
    fun _ _ kept lawful => kept_moves kept lawful.1.1 lawful.1.2
  exact Guarded.Machine.run_total moves (start_kept (job.region p) (managed.clean p)) (managed.meets within p)

theorem Managed.partners (managed : Managed job) (within : count ≤ job.items.length) (i k : Nat) :
    ∃ s t, job.tenancy i count = some s ∧ job.tenancy k count = some t ∧ Partners (job.region i) (job.region k) s t := by
  obtain ⟨s,ran,_⟩ := managed.tenant within i
  obtain ⟨t,ran',_⟩ := managed.tenant within k
  refine ⟨s,t,ran,ran',?_⟩
  have meets := managed.meets within i
  have meets' := managed.meets within k
  unfold TeamJob.tenancy at ran ran'
  rw [heapCalls_on] at meets meets' ran ran'
  exact partners_run (managed.sizes i k) (managed.places i) (managed.places k)
    (start_partners (managed.sizes i k) (managed.clean i) (managed.clean k)) meets meets' ran ran'

theorem blocks_eq (ran : job.tenancy p count = some s) : job.blocks p count = s.holdings := by
  unfold TeamJob.blocks
  rw [ran]
  rfl

-- comm_wireup's block is held all along.
theorem Managed.reserved (managed : Managed job) (within : count ≤ job.items.length) (p : Nat) :
    (job.pSync,4 * job.n) ∈ job.blocks p count := by
  obtain ⟨s,ran,_⟩ := managed.tenant within p
  have tended := managed.tended within p
  have whole := ran
  unfold TeamJob.tenancy TeamJob.heapCalls at ran
  obtain ⟨wired,first,later⟩ := Guarded.Machine.run_cons_some ran
  have start : Reserves (job.client managed) p wired := wired_reserves first
  have reserves : Reserves (job.client managed) p s := Guarded.Machine.run_keeps
    (fun _ _ _ reserves tended called => call_reserves reserves tended.1.1.1 tended.1.1.2 tended.2 called)
    start (tended.2 _ first) later
  rw [blocks_eq whole,managed.front]
  refine List.mem_map.mpr ⟨_,reserves.held,?_⟩
  rw [reserves.base]
  exact Prod.ext (Nat.sub_self _) rfl

-- At one count of collective calls the same is allocated on every PE.
theorem Managed.blocks_agree (managed : Managed job) (within : count ≤ job.items.length) (i k : Nat) :
    job.blocks i count = job.blocks k count := by
  obtain ⟨s,t,ran,ran',partners⟩ := managed.partners within i k
  rw [blocks_eq ran,blocks_eq ran',partners.holdings]

theorem Managed.blocks_apart (managed : Managed job) (within : count ≤ job.items.length) (one : block ∈ job.blocks p count)
    (two : other ∈ job.blocks p count) (different : block ≠ other) : Apart block other := by
  obtain ⟨s,ran,kept⟩ := managed.tenant within p
  rw [blocks_eq ran] at one two
  exact kept.apart one two different

theorem tenancy_heap (next : job.items[count]? = some (.heap op)) (ran : job.tenancy p count = some s) :
    job.tenancy p (count+1) = s.call (job.libc p) (op.on (job.region p).base) := by
  have longer : job.heapCalls p (count+1) = job.heapCalls p count ++ [op.on (job.region p).base] := by
    unfold TeamJob.heapCalls
    rw [calls_heap next]
    rfl
  unfold TeamJob.tenancy at ran ⊢
  rw [longer,Guarded.Machine.run_append,ran,Option.bind_some,Guarded.Machine.run_cons]
  exact Option.bind_fun_some _

theorem tenancy_sync (next : job.items[count]? = some .sync) : job.tenancy p (count+1) = job.tenancy p count := by
  unfold TeamJob.tenancy TeamJob.heapCalls
  rw [calls_sync next]

-- One more collective call leaves what was allocated as it is, or frees one block of it.
theorem Managed.blocks_next (managed : Managed job) (within : count < job.items.length) (p : Nat) :
    (∀ block ∈ job.blocks p count, block ∈ job.blocks p (count+1) ∨ job.items[count]? = some (.heap (.free block.1))) ∧
    ((∀ block ∈ job.blocks p (count+1), block ∈ job.blocks p count) ∨
      ∀ block ∈ job.blocks p count, block ∈ job.blocks p (count+1)) := by
  obtain ⟨s,_,ran,_,partners⟩ := managed.partners (Nat.le_of_lt within) p p
  have ptr := partners.twins.bases.1.1
  obtain ⟨t,ran',_⟩ : ∃ t, job.tenancy p (count+1) = some t ∧ Kept t := managed.tenant within p
  have next : job.items[count]? = some job.items[count] := List.getElem?_eq_getElem within
  cases item : job.items[count] with
  | sync =>
    rw [item] at next
    have same : job.blocks p (count+1) = job.blocks p count := by
      unfold TeamJob.blocks
      rw [tenancy_sync next]
    rw [same]
    exact ⟨fun _ member => Or.inl member,Or.inl fun _ member => member⟩
  | heap op =>
    rw [item] at next
    have called := (tenancy_heap next ran).symm.trans ran'
    rw [blocks_eq ran,blocks_eq ran',next]
    cases op with
    | malloc bytes =>
      have grown : ∃ more, t.holdings = s.holdings ++ more := by
        rcases holdings_malloc partners.kept called with ⟨same,_⟩ | ⟨p,more,_⟩
        · exact ⟨[],by rw [same,List.append_nil]⟩
        · exact ⟨_,more⟩
      obtain ⟨more,grown⟩ := grown
      rw [grown]
      exact ⟨fun _ member => Or.inl (List.mem_append_left _ member),Or.inr fun _ member => List.mem_append_left _ member⟩
    | free offset =>
      simp only [Collective.on] at called
      rw [← ptr] at called
      rw [holdings_free partners.kept called]
      refine ⟨fun block member => ?_,Or.inl fun _ member => (List.mem_filter.mp member).1⟩
      by_cases here : block.1 = offset
      · exact Or.inr (by rw [here])
      · exact Or.inl (List.mem_filter.mpr ⟨member,by simpa using here⟩)

end Blocks

-- A step puts at most one application's range, which it asks for or a job asked for; and a
-- PE's own new job is asked for.
structure Sends (cluster : Cluster) (event : Event) (s t : System) : Prop where
  data : ∀ i k, t.data cluster i k = s.data cluster i k ∨ ∃ put, t.data cluster i k = s.data cluster i k ++ [put] ∧
    (i = event.me ∧ k < cluster.n) ∧ put.round = (s.pes i).calls ∧ (event.Asks put.dest put.bytes.length ∨
      ∃ work ∈ (s.pes i).jobs, work.originPe = BitVec.ofNat 32 i ∧ work.dest = put.dest ∧ work.size.toNat = put.bytes.length)
  own : ∀ i < cluster.n, ∀ work ∈ (t.pes i).jobs, work.originPe = BitVec.ofNat 32 i →
    work ∈ (s.pes i).jobs ∨ (i = event.me ∧ event.Asks work.dest work.size.toNat)

section Sends
variable {cluster : Cluster} {s t : System} {event : Event} {me pe i k : Nat}

theorem own_setPe {entry : Pe} (jobs : ∀ work ∈ entry.jobs, work.originPe = BitVec.ofNat 32 me →
      work ∈ (s.pes me).jobs ∨ (me = event.me ∧ event.Asks work.dest work.size.toNat)) :
    ∀ i < cluster.n, ∀ work ∈ ((s.setPe me entry).pes i).jobs, work.originPe = BitVec.ofNat 32 i →
      work ∈ (s.pes i).jobs ∨ (i = event.me ∧ event.Asks work.dest work.size.toNat) := by
  intro i _ work member origin
  by_cases here : i = me
  · subst i
    simp only [pes_setPe,Function.update_self] at member
    exact jobs work member origin
  · simp only [pes_setPe,Function.update_of_ne here] at member
    exact Or.inl member

theorem data_put {put : RemotePut} (puts : ∀ i k, t.puts cluster i k = s.puts cluster i k ++ if me = i ∧ pe = k then [put] else [])
    (apart : cluster.Apart put.dest put.bytes.length) (i k : Nat) :
    t.data cluster i k = s.data cluster i k ∨ ∃ put', t.data cluster i k = s.data cluster i k ++ [put'] ∧ put' = put ∧ me = i ∧ pe = k := by
  rw [data_append (puts i k) apart]
  by_cases here : me = i ∧ pe = k
  · rw [if_pos here]
    exact Or.inr ⟨put,rfl,rfl,here⟩
  · rw [if_neg here,List.append_nil]
    exact Or.inl rfl

theorem sync_sends (signalled : Signalled cluster s) (inside : me < cluster.n) (moved : s.move cluster (.sync me prior) = some t) :
    Sends cluster (.sync me prior) s t := by
  obtain ⟨⟨pc,effect⟩,advanced,performed⟩ := Option.bind_eq_some_iff.mp moved
  obtain ⟨b,abstracts,balanced,_⟩ := signalled.barrier
  have signals := sync_signals abstracts balanced inside advanced
  constructor
  · intro i k
    left
    cases effect with
    | signal pe slot =>
      obtain ⟨used,_⟩ := signals.signal pe slot rfl
      have puts : t.puts cluster i k = s.puts cluster i k ++ if me = i ∧ pe = k then
          [⟨me,pe,cluster.slotOffset slot,(intBytes 1).bytes,((s.setPe me {s.pes me with pc := pc}).pes me).calls⟩] else [] :=
        puts_commPut signalled.wired performed
      exact data_slot puts rfl (intBytes_length 1) ⟨used.1,used.2.1⟩
    | zero slot =>
      have used := signals.zero slot rfl
      cases performed
      exact data_slot (puts_write rfl _ _) rfl (intBytes_length 0) ⟨used.1,used.2.1⟩
    | _ =>
      cases performed
      rfl
  · intro i below work member origin
    rw [(perform_thread performed i).2.2.2] at member
    have same : ∀ work ∈ ({s.pes me with pc := pc} : Pe).jobs, work ∈ (s.pes me).jobs := fun _ member => member
    exact own_setPe (fun work member _ => Or.inl (same work member)) i below work member origin

-- A job of the PE's own application is one put of the range it asked for; a packet's job only writes what was sent.
theorem execute_sends (signalled : Signalled cluster s) (inside : me < cluster.n)
    (moved : s.move cluster (.execute me contents prior) = some t) : Sends cluster (.execute me contents prior) s t := by
  have piped := signalled.toPiped
  obtain ⟨job,busy,ran⟩ := Option.bind_eq_some_iff.mp moved
  have jobs := jobs_busy busy
  have member : job ∈ (s.pes me).jobs := by
    rw [jobs]
    exact List.mem_cons_self
  have fewer : ∀ work ∈ ({s.pes me with busy := none} : Pe).jobs, work ∈ (s.pes me).jobs := by
    intro work there
    rw [jobs]
    exact List.mem_cons_of_mem _ there
  rcases execute_cases piped inside busy ran with ⟨own,src,size,put⟩ | ⟨_,_,peers,_,rfl⟩
  · have apart : cluster.Apart job.dest src.bytes.length := by
      rw [size]
      exact signalled.calm me inside job member own.2.1
    constructor
    · intro i k
      have puts : ∀ i k, t.puts cluster i k = s.puts cluster i k ++ if me = i ∧ job.destPe = k then
          [⟨me,job.destPe,job.dest,src.bytes,((s.setPe me {s.pes me with busy := none}).pes me).calls⟩] else [] :=
        fun _ _ => puts_commPut signalled.wired put
      rcases data_put puts apart i k with same | ⟨put,more,rfl,rfl,rfl⟩
      · exact Or.inl same
      · refine Or.inr ⟨_,more,⟨rfl,own.2.2.2⟩,by simp,Or.inr ⟨job,member,own.2.1,rfl,size.symm⟩⟩
    · intro i below work there origin
      rw [(commPut_thread put i).2.2.2] at there
      exact own_setPe (fun work there _ => Or.inl (fewer work there)) i below work there origin
  · refine ⟨fun i k => Or.inl ?_,own_setPe fun work there _ => Or.inl (fewer work there)⟩
    unfold System.data
    rw [puts_apply peers]
    rfl

theorem receive_sends (signalled : Signalled cluster s) (inside : me < cluster.n)
    (reliable : Reliable cluster s (.receive me index reads)) (found : PayloadFound (.receive me index reads))
    (moved : s.move cluster (.receive me index reads) = some t) : Sends cluster (.receive me index reads) s t := by
  have piped := signalled.toPiped
  obtain ⟨peer,_,peers,taken⟩ := receive_cases inside reliable found moved
  obtain ⟨packets,streams,made,_⟩ := piped.flow peer me peers
  rcases taken packets streams with rfl | ⟨packet,_,rfl,rfl⟩
  · exact ⟨fun _ _ => Or.inl rfl,own_setPe (s := s) fun work member _ => Or.inl member⟩
  · refine ⟨fun _ _ => Or.inl rfl,own_setPe (s := s) fun work member own => ?_⟩
    simp only [Pe.jobs,← List.append_assoc] at member
    rcases List.mem_append.mp member with old | new
    · exact Or.inl old
    · cases List.mem_singleton.mp new
      have origin := (made packet List.mem_cons_self).2
      have same := peNumber_inj peers.1 peers.2.1 (origin.symm.trans own)
      exact False.elim (peers.2.2 (same ▸ rfl))

theorem step_sends (signalled : Signalled cluster s) (reliable : Reliable cluster s event) (found : PayloadFound event)
    (beside : Beside cluster event) (moved : s.step cluster event = some t) : Sends cluster event s t := by
  have piped := signalled.toPiped
  unfold System.step at moved
  split at moved
  · rename_i inside
    cases event with
    | put me dest src pe prior =>
      simp only [System.move] at moved
      split at moved
      · rename_i free
        constructor
        · intro i k
          have puts : ∀ i k, t.puts cluster i k = s.puts cluster i k ++
              if me = i ∧ pe = k then [⟨me,pe,dest,src.bytes,(s.pes me).calls⟩] else [] :=
            fun _ _ => puts_commPut (s := s.issue _) piped.wired moved
          rcases data_put puts beside i k with same | ⟨put,more,rfl,rfl,rfl⟩
          · exact Or.inl same
          · exact Or.inr ⟨_,more,⟨rfl,free.1⟩,rfl,Or.inl ⟨rfl,rfl⟩⟩
        · intro i _ work member _
          rw [(commPut_thread moved i).2.2.2] at member
          exact Or.inl member
      · cases moved
    | putNbi me dest size pe =>
      simp only [System.move] at moved
      split at moved
      · cases moved
        refine ⟨fun _ _ => Or.inl rfl,own_setPe (s := s) fun work member _ => ?_⟩
        simp only [Pe.jobs,← List.append_assoc] at member
        rcases List.mem_append.mp member with old | new
        · exact Or.inl old
        · cases List.mem_singleton.mp new
          exact Or.inr ⟨rfl,rfl,rfl⟩
      · cases moved
    | sync me prior => exact sync_sends signalled inside moved
    | dequeue me =>
      simp only [System.move] at moved
      split at moved
      · rename_i job rest idle queued
        cases moved
        refine ⟨fun _ _ => Or.inl rfl,own_setPe fun work member _ => Or.inl ?_⟩
        simpa [Pe.jobs,idle,queued] using member
      · cases moved
    | execute me contents prior => exact execute_sends signalled inside moved
    | send me result =>
      have here : me < cluster.n := inside
      obtain ⟨_,_,_,_,_,_,_,rfl⟩ := send_cases piped here reliable moved
      exact ⟨fun _ _ => Or.inl rfl,own_setPe (s := s) fun work member _ => Or.inl member⟩
    | receive me index reads => exact receive_sends signalled inside reliable found moved
  · cases moved

end Sends

-- Every range that was put lay, in the round it was put in, in a block of the putting PE,
-- which was in no barrier then; and so does what its worker has still to put.
structure Tenanted (job : TeamJob) (heaps : Nat → Symmetric) (s : Team) : Prop extends Underway job heaps s where
  completing : Completing job.toCluster s.system
  traceable : Traceable job.toCluster s.system
  within : ∀ p, s.begun p ≤ job.items.length
  data : ∀ i k, ∀ put ∈ s.system.data job.toCluster i k, put.round ≤ (s.system.pes i).returns ∧
    ∃ block ∈ job.blocks i put.round, InBlock put.dest put.bytes.length block
  own : ∀ i < job.n, ∀ work ∈ (s.system.pes i).jobs, work.originPe = BitVec.ofNat 32 i →
    (s.system.pes i).returns = (s.system.pes i).calls ∧
      ∃ block ∈ job.blocks i (s.system.pes i).calls, InBlock work.dest work.size.toNat block

section Steps
variable {job : TeamJob} {cluster : Cluster} {s t : System} {u v : Team} {event : Event} {heaps : Nat → Symmetric} {me i k : Nat}

theorem step_returns (signalled : Signalled cluster s) (moved : s.step cluster event = some t) (p : Nat) :
    (s.pes p).returns ≤ (t.pes p).returns := by
  by_cases here : p = event.me
  · subst p
    cases event with
    | sync me prior =>
      have counts := sync_counts signalled moved
      simp only [Event.me]
      omega
    | _ => exact Nat.le_of_eq (step_counts moved (by intro _ _ same; cases same) _).2.symm
  · rw [step_elsewhere moved here]

-- What is put into a block of one's own lies beside __pSync.
theorem TeamJob.Holds.apart (managed : Managed job) (within : u.begun me ≤ job.items.length) (holds : job.Holds u me dest size) :
    job.Apart dest size := by
  obtain ⟨block,member,other,starts,ends⟩ := holds
  have apart := managed.blocks_apart within (managed.reserved within me) member fun same => other (by rw [← same])
  simp only [Apart] at apart
  unfold Cluster.Apart
  omega

theorem Event.Lands.beside (managed : Managed job) (within : ∀ p, u.begun p ≤ job.items.length) (lands : event.Lands job u) :
    Beside job.toCluster event := by
  cases event with
  | put me dest src pe prior => exact lands.apart managed (within me)
  | putNbi me dest size pe => exact lands.apart managed (within me)
  | _ => trivial

theorem asked_lands (underway : Underway job heaps u) (admitted : event.Admitted (u.standing event.me)) (lands : event.Lands job u)
    (asks : event.Asks dest size) : (u.system.pes event.me).returns = (u.system.pes event.me).calls ∧
      ∃ block ∈ job.blocks event.me (u.system.pes event.me).calls, InBlock dest size block := by
  have placed := underway.placed event.me
  have outside : u.standing event.me = .outside := by
    cases event with
    | put me dest src pe prior => exact admitted
    | putNbi me dest size pe => exact admitted
    | _ => cases asks
  rw [outside] at placed
  refine ⟨placed.2,?_⟩
  rw [← placed.1]
  cases event with
  | put me dest src pe prior =>
    obtain ⟨rfl,rfl⟩ := asks
    obtain ⟨block,member,_,inside⟩ := lands
    exact ⟨block,member,inside⟩
  | putNbi me dest size pe =>
    obtain ⟨rfl,rfl⟩ := asks
    obtain ⟨block,member,_,inside⟩ := lands
    exact ⟨block,member,inside⟩
  | _ => cases asks

-- No job of its own outlasts a PE's step into the barrier.
theorem own_counts (tenanted : Tenanted job heaps u) (drained : Drained job.toCluster u.system event)
    (moved : u.system.step job.toCluster event = some t) (inside : i < job.n)
    (work : ∃ work ∈ (u.system.pes i).jobs, work.originPe = BitVec.ofNat 32 i) :
    (t.pes i).calls = (u.system.pes i).calls ∧ (t.pes i).returns = (u.system.pes i).returns := by
  obtain ⟨work,member,origin⟩ := work
  by_cases here : i = event.me
  · cases event with
    | sync me prior =>
      subst i
      simp only [Event.me] at member origin
      exfalso
      have free := (tenanted.own me inside work member origin).1
      obtain ⟨b,abstracts,balanced,_⟩ := tenanted.completing.signalled.barrier
      have returned := balanced.returned me inside
      rw [abstracts.returns,abstracts.calls,abstracts.pc] at returned
      have outside : (u.system.pes me).pc = .outside := by
        by_contra within
        rw [if_neg within] at returned
        omega
      exact (drained outside).1 work member origin
    | _ => exact step_counts moved (by intro _ _ same; cases same) i
  · rw [step_elsewhere moved here]
    exact ⟨rfl,rfl⟩

theorem step_tenanted {event : TeamEvent} (managed : Managed job) (tenanted : Tenanted job heaps u) (resident : Resident job u event)
    (moved : u.step job event = some v) : Tenanted job heaps v := by
  have underway := step_underway tenanted.completing.signalled tenanted.toUnderway moved
  cases event with
  | begin me =>
    obtain ⟨item,heap,_,_,next,_,rfl⟩ := begin_cases moved
    refine ⟨underway,tenanted.completing,tenanted.traceable,?_,tenanted.data,tenanted.own⟩
    intro p
    by_cases here : p = me
    · subst p
      simp only [Function.update_self]
      obtain ⟨bound,_⟩ := List.getElem?_eq_some_iff.mp next
      exact bound
    · simp only [Function.update_of_ne here]
      exact tenanted.within p
  | run event =>
    obtain ⟨system,admitted,stepped,rfl⟩ := run_cases moved
    obtain ⟨⟨⟨reliable,found⟩,drained⟩,lands⟩ := resident
    have beside := lands.beside managed tenanted.within
    have signalled := tenanted.completing.signalled
    have sends := step_sends signalled reliable found beside stepped
    have returns := step_returns signalled stepped
    refine ⟨underway,step_completing tenanted.completing reliable found beside drained stepped,
      step_traceable signalled tenanted.traceable reliable found beside stepped,tenanted.within,?_,?_⟩
    · intro i k put member
      have kept : ∀ old ∈ u.system.data job.toCluster i k, old.round ≤ (system.pes i).returns ∧
          ∃ block ∈ job.blocks i old.round, InBlock old.dest old.bytes.length block := by
        intro old there
        obtain ⟨round,block⟩ := tenanted.data i k old there
        exact ⟨Nat.le_trans round (returns i),block⟩
      rcases sends.data i k with same | ⟨fresh,more,⟨mine,_⟩,round,asked⟩
      · rw [same] at member
        exact kept put member
      · rw [more] at member
        rcases List.mem_append.mp member with old | new
        · exact kept put old
        · cases List.mem_singleton.mp new
          have inside : i < job.n := mine ▸ step_inside stepped
          have lies : (u.system.pes i).returns = (u.system.pes i).calls ∧
              ∃ block ∈ job.blocks i (u.system.pes i).calls, InBlock put.dest put.bytes.length block := by
            rcases asked with asks | ⟨work,there,origin,dest,size⟩
            · rw [mine]
              exact asked_lands tenanted.toUnderway admitted lands asks
            · rw [← dest,← size]
              exact tenanted.own i inside work there origin
          rw [round]
          exact ⟨lies.1 ▸ returns i,lies.2⟩
    · intro i inside work member origin
      rcases sends.own i inside work member origin with old | ⟨mine,asks⟩
      · obtain ⟨calls,same⟩ := own_counts tenanted drained stepped inside ⟨work,old,origin⟩
        simp only [calls,same]
        exact tenanted.own i inside work old origin
      · have plain : ∀ me prior, event ≠ .sync me prior := by
          intro me prior same
          subst same
          cases asks
        obtain ⟨calls,same⟩ := step_counts stepped plain i
        simp only [calls,same]
        rw [mine]
        exact asked_lands tenanted.toUnderway admitted lands asks

theorem start_tenanted (job : TeamJob) (heaps : Nat → Symmetric) : Tenanted job heaps (Team.start heaps) := by
  refine ⟨start_underway job heaps,start_completing job.linked,start_traceable job.toCluster,fun _ => Nat.zero_le _,?_,?_⟩
  · intro i k put member
    simp [Team.start,System.data,System.puts,System.updates,System.calls,System.start] at member
  · intro i _ work member
    cases member

end Steps

-- Where a write into a heap lands: in a block that was allocated there after `round`
-- collective calls, the PE's last one or the one before. If the PE has freed it since, it is
-- still in that shmem_free, and nothing else that is allocated is touched.
structure Contained (job : TeamJob) (s : Team) (update : Update) (round : Nat) (block : Nat × Nat) : Prop where
  allocated : block ∈ job.blocks update.heap round
  inside : InBlock update.dest update.bytes.length block
  current : round = s.begun update.heap ∨ round + 1 = s.begun update.heap
  held : block ∈ job.blocks update.heap (s.begun update.heap) ∨
    (s.standing update.heap ≠ .outside ∧ job.items[round]? = some (.heap (.free block.1)))
  others : ∀ other ∈ job.blocks update.heap (s.begun update.heap), other ≠ block →
    Apart other (update.dest.toNat,update.bytes.length)

section Writes
variable {job : TeamJob} {cluster : Cluster} {s t : System} {u v : Team} {event : Event} {heaps : Nat → Symmetric} {me i k : Nat}
  {update : Update}

-- The put behind a write of data is of no earlier round than its target has returned from.
theorem written_put (completing : Completing cluster s) (piped : Piped cluster t) (sends : Sends cluster event s t)
    (adds : Adds cluster s t new) (inside : event.me < cluster.n) (written : t.applied = s.applied ++ [update])
    (data : cluster.Apart update.dest update.bytes.length) : (update.origin < cluster.n ∧ update.heap < cluster.n) ∧
      ∃ put ∈ t.data cluster update.origin update.heap, put.written = update.written ∧ (s.pes update.heap).returns ≤ put.round := by
  have updates : t.updates update.origin update.heap = s.updates update.origin update.heap ++ [update] := by
    unfold System.updates
    rw [written,List.filter_append]
    simp
  obtain ⟨more,grown⟩ := adds.puts update.origin update.heap
  -- a put that was not there before is of the round that its origin is in
  have fresh : ∀ put ∈ more, cluster.Apart put.dest put.bytes.length → (update.origin < cluster.n ∧ update.heap < cluster.n) ∧
      (s.pes update.heap).returns ≤ put.round := by
    intro put member apart
    have longer : t.data cluster update.origin update.heap = s.data cluster update.origin update.heap ++
        more.filter fun put => cluster.Apart put.dest put.bytes.length := by
      unfold System.data
      rw [grown,List.filter_append]
    have listed : put ∈ more.filter fun put => cluster.Apart put.dest put.bytes.length :=
      List.mem_filter.mpr ⟨member,decide_eq_true apart⟩
    rcases sends.data update.origin update.heap with same | ⟨one,single,⟨mine,there⟩,round,_⟩
    · rw [longer,List.append_right_eq_self] at same
      rw [same] at listed
      cases listed
    · rw [longer,List.append_cancel_left_eq] at single
      rw [single] at listed
      cases List.mem_singleton.mp listed
      have origin : update.origin < cluster.n := mine ▸ inside
      refine ⟨⟨origin,there⟩,?_⟩
      rw [round]
      exact completing.signalled.syncSafe.order _ there _ origin
  have inData : ∀ put ∈ t.puts cluster update.origin update.heap, put.written = update.written →
      put ∈ t.data cluster update.origin update.heap := by
    intro put member same
    obtain ⟨dest,bytes⟩ := Prod.mk.inj same
    exact List.mem_filter.mpr ⟨member,decide_eq_true (by rw [dest,bytes]; exact data)⟩
  by_cases near : cluster.node update.origin = cluster.node update.heap
  · have puts : t.puts cluster update.origin update.heap = s.puts cluster update.origin update.heap ++ [update.put] := by
      unfold System.puts
      rw [if_pos near,if_pos near,updates,List.map_append]
      rfl
    have only : more = [update.put] := by
      rw [puts] at grown
      exact (List.append_cancel_left_eq _ _ _ ▸ grown).symm
    obtain ⟨both,round⟩ := fresh update.put (by rw [only]; exact List.mem_singleton.mpr rfl) data
    refine ⟨both,update.put,inData update.put ?_ rfl,rfl,round⟩
    rw [puts]
    exact List.mem_append_right _ (List.mem_singleton.mpr rfl)
  · have peers : Peers cluster.toJob update.origin update.heap := by
      rcases piped.placed update (by rw [written]; exact List.mem_append_right _ (List.mem_singleton.mpr rfl)) with ⟨_,same⟩ | ⟨_,peers⟩
      · exact False.elim (near same)
      · exact peers
    have applied := (piped.flow update.origin update.heap peers).applied
    have puts : t.puts cluster update.origin update.heap = t.calls update.origin update.heap := if_neg near
    rw [updates,List.map_append,← puts] at applied
    obtain ⟨front,last,split,before,single⟩ := List.map_eq_append_iff.mp applied
    obtain ⟨put,rest,rfl,same,_⟩ := List.map_eq_cons_iff.mp single
    have length : front.length = (s.updates update.origin update.heap).length := by simpa using congrArg List.length before
    have behind : put ∈ (t.puts cluster update.origin update.heap).drop (s.updates update.origin update.heap).length := by
      rw [← List.take_append_drop (s.updates update.origin update.heap ++ [update]).length (t.puts cluster _ _),split,← length,
        List.append_assoc,List.drop_left]
      exact List.mem_append_left _ List.mem_cons_self
    have member := List.mem_of_mem_drop behind
    refine ⟨⟨peers.1,peers.2.1⟩,put,inData put member same,same,?_⟩
    rw [grown,List.drop_append] at behind
    rcases List.mem_append.mp behind with old | new
    · exact waiting_rounds completing peers put old
    · obtain ⟨dest,bytes⟩ := Prod.mk.inj same
      exact (fresh put (List.mem_of_mem_drop new) (by rw [dest,bytes]; exact data)).2

theorem InBlock.apart {dest : BitVec 64} {size : Nat} {block other : Nat × Nat} (inside : InBlock dest size block)
    (apart : Apart other block) : Apart other (dest.toNat,size) := by
  obtain ⟨starts,ends⟩ := inside
  simp only [Apart] at apart ⊢
  omega

-- A block of the round, or of the one before.
theorem contained_block (managed : Managed job) (tenanted : Tenanted job heaps u) {round : Nat} {block : Nat × Nat}
    (member : block ∈ job.blocks update.heap round) (inside : InBlock update.dest update.bytes.length block)
    (late : (u.system.pes update.heap).returns ≤ round) (early : round ≤ u.begun update.heap) :
    Contained job u update round block := by
  have within := tenanted.within update.heap
  obtain ⟨_,last,_⟩ := tenanted.single update.heap
  by_cases now : round = u.begun update.heap
  · subst now
    exact ⟨member,inside,Or.inl rfl,Or.inl member,fun other held different =>
      inside.apart (managed.blocks_apart within held member different)⟩
  · have before : round + 1 = u.begun update.heap := by omega
    have short : round < job.items.length := by omega
    obtain ⟨kept,grown⟩ := managed.blocks_next short update.heap
    rw [before] at kept grown
    have standing : u.standing update.heap ≠ .outside := by
      intro outside
      have placed := tenanted.placed update.heap
      rw [outside] at placed
      simp only [Placed] at placed
      omega
    refine ⟨member,inside,Or.inr before,(kept block member).imp_right fun freed => ⟨standing,freed⟩,?_⟩
    intro other held different
    -- the two were allocated at once, before the call or after it
    rcases grown with fewer | more
    · exact inside.apart (managed.blocks_apart (Nat.le_of_lt short) (fewer other held) member different)
    · exact inside.apart (managed.blocks_apart within held (more block member) different)

-- What the PEs may rely on: their heaps hold what the common program has allocated in them,
-- and what the next step writes into a heap, for whichever PE, is contained.
structure Housed (job : TeamJob) (s : Team) : Prop where
  described : ∀ p, ∃ session, job.tenancy p (s.begun p) = some session ∧ Describes session (s.heaps p)
  contained : ∀ event t, Resident job s (.run event) → s.step job (.run event) = some t →
    ∀ update, t.system.applied = s.system.applied ++ [update] → ∃ round block, Contained job s update round block

theorem Tenanted.described (tenanted : Tenanted job heaps u)
    (wired : ∀ p, commWireup (job.libc p) (job.region p) job.n = some (heaps p)) (p : Nat) :
    ∃ session, job.tenancy p (u.begun p) = some session ∧ Describes session (u.heaps p) := by
  obtain ⟨_,first,called,store,heap,made⟩ := commWireup_session (wired p)
  obtain ⟨session,later,describes⟩ := describes_run ⟨store,heap,made⟩ (tenanted.ran p)
  have stepped : (sessions (job.libc p)).step (Session.start (job.libc p) (job.region p)) (.malloc (4 * job.n)) = some first := called
  refine ⟨session,?_,describes⟩
  unfold TeamJob.tenancy TeamJob.heapCalls
  rw [Guarded.Machine.run_cons,stepped]
  exact later

theorem Tenanted.contained (tenanted : Tenanted job heaps u) (managed : Managed job) (resident : Resident job u (.run event))
    (moved : u.step job (.run event) = some v) (written : v.system.applied = u.system.applied ++ [update]) :
    ∃ round block, Contained job u update round block := by
  have after := step_tenanted managed tenanted resident moved
  have fresh : update ∈ v.system.applied := by
    rw [written]
    exact List.mem_append_right _ (List.mem_singleton.mpr rfl)
  obtain ⟨system,_,stepped,rfl⟩ := run_cases moved
  obtain ⟨⟨⟨reliable,found⟩,_⟩,lands⟩ := resident
  have signalled := tenanted.completing.signalled
  have sends := step_sends signalled reliable found (lands.beside managed tenanted.within) stepped
  obtain ⟨new,adds⟩ := step_adds signalled.toPiped reliable found stepped
  by_cases data : job.Apart update.dest update.bytes.length
  · obtain ⟨⟨origin,heap⟩,put,member,same,late⟩ := written_put tenanted.completing after.completing.signalled.toPiped sends adds
      (step_inside stepped) written data
    obtain ⟨returned,block,allocated,inside⟩ := after.data _ _ put member
    obtain ⟨dest,bytes⟩ := Prod.mk.inj same
    rw [dest,bytes] at inside
    have early : put.round ≤ u.begun update.heap :=
      Nat.le_trans returned (Nat.le_trans (after.completing.signalled.syncSafe.order _ origin _ heap) (after.single update.heap).2.2)
    rw [managed.blocks_agree (Nat.le_trans early (tenanted.within _)) _ update.heap] at allocated
    exact ⟨_,block,contained_block managed tenanted allocated inside late early⟩
  · rcases after.traceable.applied update fresh with ⟨slot,below,dest,size⟩ | ⟨issue,issued,_,_,dest,size,_⟩
    · have reserved := managed.reserved (tenanted.within update.heap) update.heap
      have range := slot_range below dest size
      exact ⟨_,_,contained_block managed tenanted reserved ⟨range.1,range.2⟩ (tenanted.single _).1 (Nat.le_refl _)⟩
    · have beside := after.traceable.beside issue issued
      simp only [Cluster.Apart,dest,size] at beside
      exact False.elim (data beside)

-- In every interleaving of the applications' collective calls and puts with the threads
-- that carry them.
theorem writes_contained (job : TeamJob) (managed : Managed job)
    (wired : ∀ p, commWireup (job.libc p) (job.region p) job.n = some (heaps p)) (events : List TeamEvent)
    (meets : (teams job).Meets (Resident job) (Team.start heaps) events)
    (ran : (teams job).run (Team.start heaps) events = some u) : Housed job u := by
  have tenanted : Tenanted job heaps u := Guarded.Machine.run_keeps
    (fun _ _ _ tenanted resident moved => step_tenanted managed tenanted resident moved) (start_tenanted job heaps) meets ran
  exact ⟨tenanted.described wired,fun _ _ resident moved _ written => tenanted.contained managed resident moved written⟩

end Writes

-- Two PEs on one node that allocate a block and free it.
def closeTenants : TeamJob := {closeTeam with items := [.heap (.malloc 16),.heap (.free 8)]}

-- PE 1 has freed its block already, and waits in shmem_free, when PE 0 puts into it.
theorem writes_contained_two : ∃ heaps s t update, (teams closeTenants).run (Team.start heaps)
      ([.begin 0,.begin 1] ++ ([1,1,0,0,0,0,0,1,1,1].map fun me => .run (.sync me 0)) ++ [.begin 1]) = some s ∧
    s.step closeTenants (.run (.put 0 8 ⟨[7,8,9],by decide⟩ 1 5)) = some t ∧
    t.system.applied = s.system.applied ++ [update] ∧ ∃ round block, Contained closeTenants s update round block := by
  let heaps : Nat → Symmetric := fun _ => (commWireup (closeTenants.libc 0) (closeTenants.region 0) 2).get (by decide +kernel)
  let events : List TeamEvent := [.begin 0,.begin 1] ++ ([1,1,0,0,0,0,0,1,1,1].map fun me => .run (.sync me 0)) ++ [.begin 1]
  let put : Event := .put 0 8 ⟨[7,8,9],by decide⟩ 1 5
  have moves : ((teams closeTenants).run (Team.start heaps) events).any (fun s =>
      ((s.step closeTenants (.run put)).any fun t => ∃ update ∈ t.system.applied, t.system.applied = s.system.applied ++ [update]) ∧
        Resident closeTenants s (.run put)) = true := by
    decide +kernel
  have meets : (teams closeTenants).Meets (Resident closeTenants) (Team.start heaps) events := by decide +kernel
  obtain ⟨s,ran,stepped⟩ := (Option.any_eq_true _ _).mp moves
  obtain ⟨next,resident⟩ := of_decide_eq_true stepped
  obtain ⟨t,moved,wrote⟩ := (Option.any_eq_true _ _).mp next
  obtain ⟨update,_,written⟩ := of_decide_eq_true wrote
  have lawful : (sessions (closeTenants.libc 0)).Meets
      (fun s call => Lawful (closeTenants.libc 0) s call ∧ call ≠ .free (closeTenants.region 0).base)
      (Session.start (closeTenants.libc 0) (closeTenants.region 0)) (closeTenants.heapCalls 0 2) := by decide +kernel
  have managed : Managed closeTenants := by
    refine ⟨⟨fun _ _ => rfl,fun _ => rfl,fun _ n => Or.inr ?_⟩,Nat.zero_lt_two,rfl,fun _ => Nat.le_of_ble_eq_true rfl,fun _ => ?_⟩
    · exact Nat.lt_of_lt_of_le (by decide : 4096 + 64 < 65536) (Nat.le_add_right 65536 _)
    · exact lawful
  exact ⟨heaps,s,t,update,ran,moved,written,
    (writes_contained closeTenants managed (fun _ => (Option.some_get _).symm) events meets ran).contained _ _ resident moved _ written⟩

end OpenShmem
