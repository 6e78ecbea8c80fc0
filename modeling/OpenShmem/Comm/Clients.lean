import OpenShmem.Comm.Provenance
import OpenShmem.Memory.Capacity
import OpenShmem.Memory.Fresh
import OpenShmem.Memory.Safety

namespace OpenShmem
open Linked

-- The job with the PEs' symmetric heaps; comm_wireup takes __pSync from the front of each.
structure ClientJob extends Cluster where
  linked : toCluster.WiredUp
  libc : Nat → Libc
  region : Nat → Region
  positive : 0 < n
  front : pSync = 0
  room : ∀ p, 4 * n ≤ (region p).size
  clean : ∀ p, ((libc p).prior 0).next = none

-- The system with the allocators, and what their users hold.
structure Clients where
  system : System
  heaps : Nat → Session

inductive ClientEvent where
  | call (me : Nat) (call : Call)
  | run (event : Event)
deriving DecidableEq

-- comm_heap_malloc of __pSync.
def ClientJob.wired (job : ClientJob) (p : Nat) : Option Session :=
  (Session.start (job.libc p) (job.region p)).call (job.libc p) (.malloc (4 * job.n))

def Clients.step (job : ClientJob) (s : Clients) : ClientEvent → Option Clients
  | .call me call =>
    if me < job.n ∧ (s.system.pes me).pc = .outside then do
      let heap ← (s.heaps me).call (job.libc me) call
      return {s with heaps := Function.update s.heaps me heap}
    else none
  | .run event => do
    let system ← s.system.step job.toCluster event
    return {s with system := system}

def Clients.start (heaps : Nat → Session) : Clients := ⟨.start,heaps⟩

def clients (job : ClientJob) : Guarded.Machine Clients ClientEvent := ⟨Clients.step job⟩

-- The block of the caller's own heap that the destination lies in. It is not __pSync's.
def Owned (job : ClientJob) (s : Clients) (me : Nat) (dest : BitVec 64) (size : Nat) : Prop :=
  ∃ block ∈ (s.heaps me).live, block.1 ≠ (job.region me).base ∧ block.1 ≤ (job.region me).base + dest.toNat ∧
    (job.region me).base + dest.toNat + size ≤ block.1 + block.2

instance (job : ClientJob) (s : Clients) (me : Nat) (dest : BitVec 64) (size : Nat) : Decidable (Owned job s me dest size) :=
  inferInstanceAs (Decidable (∃ block ∈ (s.heaps me).live, _))

def Targets (job : ClientJob) (s : Clients) : Event → Prop
  | .put me dest src _ _ => Owned job s me dest src.bytes.length
  | .putNbi me dest size _ => Owned job s me dest size.toNat
  | _ => True

instance (job : ClientJob) (s : Clients) : (event : Event) → Decidable (Targets job s event)
  | .put me dest src _ _ => inferInstanceAs (Decidable (Owned job s me dest src.bytes.length))
  | .putNbi me dest size _ => inferInstanceAs (Decidable (Owned job s me dest size.toNat))
  | .sync _ _ => inferInstanceAs (Decidable True)
  | .dequeue _ => inferInstanceAs (Decidable True)
  | .execute _ _ _ => inferInstanceAs (Decidable True)
  | .send _ _ => inferInstanceAs (Decidable True)
  | .receive _ _ _ => inferInstanceAs (Decidable True)

-- What the users keep to: they free what they hold, __pSync is not theirs, and they put into
-- blocks that they hold. The rest is asked of the allocator's map and of the network.
def Behaves (job : ClientJob) (s : Clients) : ClientEvent → Prop
  | .call me call => (Allowed (s.heaps me) call ∧ Sound (job.libc me) (s.heaps me) call) ∧ call ≠ .free (job.region me).base
  | .run event => (Reliable job.toCluster s.system event ∧ PayloadFound event) ∧ Targets job s event

instance (job : ClientJob) (s : Clients) : (event : ClientEvent) → Decidable (Behaves job s event)
  | .call me call => inferInstanceAs (Decidable
      ((Allowed (s.heaps me) call ∧ Sound (job.libc me) (s.heaps me) call) ∧ call ≠ .free (job.region me).base))
  | .run event => inferInstanceAs (Decidable
      ((Reliable job.toCluster s.system event ∧ PayloadFound event) ∧ Targets job s event))

def ClientJob.pSyncBlock (job : ClientJob) (p : Nat) : Nat × Nat := ((job.region p).base,4 * job.n)

-- A heap in which __pSync's block is held.
structure Reserves (job : ClientJob) (p : Nat) (s : Session) : Prop where
  kept : Kept s
  base : s.heap.ptr = (job.region p).base
  held : job.pSyncBlock p ∈ s.live

-- Nothing that the users do with the memory they hold gets in the way of the barrier.
structure Undisturbed (job : ClientJob) (s : Clients) : Prop where
  sync : SyncSafe job.toCluster s.system
  held : ∀ p, job.pSyncBlock p ∈ (s.heaps p).live
  safe : ∀ p, Safe (s.heaps p)
  slots : ∀ update ∈ s.system.applied, update.dest.toNat < 4 * job.n → 0 < update.bytes.length →
    ∃ slot < job.n, update.dest = job.slotOffset slot ∧ update.bytes.length = 4
  accounted : Accounted job.toCluster s.system

variable {job : ClientJob} {s t : Clients} {heap next : Session} {heaps : Nat → Session} {p me : Nat}

-- comm_wireup's allocation is at the front of the region.
theorem wired_reserves (wired : job.wired p = some heap) : Reserves job p heap := by
  have fits : 4 * job.n ≤ (job.region p).base + (job.region p).size - (job.region p).base := by
    have room := job.room p
    omega
  obtain ⟨t,called,results,_⟩ := (start_stacked (job.region p) (job.clean p)).placed (job.libc p) fits
  obtain rfl := Option.some.inj (called.symm.trans wired)
  have start := start_layout (job.region p) (job.clean p)
  have initial : (Session.start (job.libc p) (job.region p)).results = [] := rfl
  have empty : (Session.start (job.libc p) (job.region p)).live = [] := rfl
  rw [initial,List.nil_append] at results
  rcases malloc_layout start called with ⟨_,none,_⟩ | ⟨before,head,x,after,split,live,placed,layout⟩
  · rw [initial,results] at none
    simp at none
  · rw [initial,List.nil_append,results] at placed
    rw [empty,List.nil_append] at live
    have here : x.ptr + x.size = (job.region p).base := by simpa using placed.symm
    have held : t.live = [job.pSyncBlock p] := by rw [live,here]; rfl
    refine ⟨⟨_,layout,?_,?_⟩,(call_fixed called).1,?_⟩
    · intro a member
      rw [live] at member
      cases List.mem_singleton.mp member
      have positive := job.positive
      exact ⟨by omega,(Session.start (job.libc p) (job.region p)).made,by simp⟩
    · rw [held]
      exact List.nodup_singleton _
    · rw [held]
      exact List.mem_singleton.mpr rfl

theorem call_reserves (reserves : Reserves job p heap) (allowed : Allowed heap call) (sound : Sound (job.libc p) heap call)
    (theirs : call ≠ .free (job.region p).base) (called : heap.call (job.libc p) call = some next) : Reserves job p next := by
  obtain ⟨kept,base,held⟩ := reserves
  refine ⟨call_kept kept allowed sound called,(call_fixed called).1.trans base,?_⟩
  obtain ⟨cells,layout,_⟩ := kept
  cases call with
  | malloc bytes =>
    rcases malloc_layout layout called with ⟨live,_⟩ | ⟨_,_,_,_,_,live,_⟩
    · rw [live]
      exact held
    · rw [live]
      exact List.mem_append_left _ held
  | free ptr =>
    rw [(free_layout layout called).1]
    refine List.mem_filter.mpr ⟨held,decide_eq_true ?_⟩
    intro same
    exact theirs (congrArg Call.free same.symm)

-- What a user holds lies behind __pSync.
theorem Owned.apart (owned : Owned job s me dest size) (reserves : Reserves job me (s.heaps me)) : job.Apart dest size := by
  obtain ⟨block,member,other,starts,ends⟩ := owned
  obtain ⟨⟨cells,layout,ledger⟩,base,held⟩ := reserves
  obtain ⟨positive,d,listed⟩ := ledger.listed block member
  obtain ⟨_,e,front⟩ := ledger.listed _ held
  have apart : Apart (job.pSyncBlock me) block := live_apart layout.wf front listed fun same => other same.symm
  have above : (job.region me).base ≤ block.1 := base ▸ layout.above _ listed
  refine Or.inr ?_
  simp only [Apart,ClientJob.pSyncBlock] at apart
  rw [job.front]
  omega

theorem Targets.beside (targets : Targets job s event) (reserves : ∀ p, Reserves job p (s.heaps p)) : Beside job.toCluster event := by
  cases event with
  | put me dest src pe prior => exact targets.apart (reserves me)
  | putNbi me dest size pe => exact targets.apart (reserves me)
  | _ => trivial

structure Reserving (job : ClientJob) (s : Clients) : Prop where
  accountable : Accountable job.toCluster s.system
  reserves : ∀ p, Reserves job p (s.heaps p)

theorem step_reserving {event : ClientEvent} (reserving : Reserving job s) (behaves : Behaves job s event)
    (moved : s.step job event = some t) : Reserving job t := by
  obtain ⟨⟨signalled,traceable⟩,reserves⟩ := reserving
  cases event with
  | call me call =>
    simp only [Clients.step] at moved
    split at moved
    · obtain ⟨heap,called,made⟩ := Option.bind_eq_some_iff.mp moved
      cases made
      refine ⟨⟨signalled,traceable⟩,?_⟩
      intro p
      by_cases here : p = me
      · subst p
        simp only [Function.update_self]
        exact call_reserves (reserves me) behaves.1.1 behaves.1.2 behaves.2 called
      · simp only [Function.update_of_ne here]
        exact reserves p
    · cases moved
  | run event =>
    obtain ⟨system,stepped,made⟩ := Option.bind_eq_some_iff.mp moved
    cases made
    obtain ⟨⟨reliable,found⟩,targets⟩ := behaves
    have beside := targets.beside reserves
    exact ⟨⟨step_signalled signalled reliable found beside stepped,
      step_traceable signalled traceable reliable found beside stepped⟩,reserves⟩

theorem Reserving.undisturbed (reserving : Reserving job s) : Undisturbed job s := by
  obtain ⟨⟨signalled,traceable⟩,reserves⟩ := reserving
  refine ⟨signalled.syncSafe,fun p => (reserves p).held,?_,?_,traceable.accounted signalled.toRecorded⟩
  · intro p
    obtain ⟨cells,layout,ledger⟩ := (reserves p).kept
    exact ledger.safe layout
  · intro update member below some
    rcases traceable.applied update member with ⟨slot,inside,dest,size⟩ | ⟨issue,issued,_,_,dest,size,_⟩
    · exact ⟨slot,inside,dest,size⟩
    · have beside := traceable.beside issue issued
      simp only [Cluster.Apart,dest,size,job.front] at beside
      simp only [Update.written] at beside
      omega

-- In every run of users that keep to their blocks, whatever they allocate, free and put,
-- and however the threads interleave.
theorem barrier_undisturbed (job : ClientJob) (wired : ∀ p, job.wired p = some (heaps p)) (events : List ClientEvent)
    (meets : (clients job).Meets (Behaves job) (Clients.start heaps) events)
    (ran : (clients job).run (Clients.start heaps) events = some s) : Undisturbed job s := by
  have start : Reserving job (Clients.start heaps) :=
    ⟨⟨(start_completing job.linked).signalled,start_traceable job.toCluster⟩,fun p => wired_reserves (wired p)⟩
  have reserving : Reserving job s := Guarded.Machine.run_keeps
    (fun _ _ _ reserving behaves moved => step_reserving reserving behaves moved) start meets ran
  exact reserving.undisturbed

-- Two PEs on two nodes.
def farClients : ClientJob := {pairCluster with
  linked := pair_wired
  libc _ := ⟨fun n => 65536 + 32 * n,fun _ => ⟨7,7,none⟩⟩
  region _ := ⟨8192,64,by decide⟩
  positive := Nat.zero_lt_two
  front := rfl
  room _ := Nat.le_of_ble_eq_true rfl
  clean _ := rfl}

-- PE 0 puts into its block behind __pSync, PE 1 is in the barrier already, and PE 0 frees
-- the block before the put is sent.
theorem barrier_undisturbed_two : ∃ heaps s, (clients farClients).run (Clients.start heaps)
      ([.call 0 (.malloc 16),.run (.sync 1 0),.run (.sync 1 6),.run (.put 0 8 ⟨[7,8,9],by decide⟩ 1 5),
        .call 0 (.free 8200),.run (.send 0 (some 32))]) = some s ∧ Undisturbed farClients s := by
  let heaps : Nat → Session := fun _ => (farClients.wired 0).get (by decide +kernel)
  let events : List ClientEvent := [.call 0 (.malloc 16),.run (.sync 1 0),.run (.sync 1 6),
    .run (.put 0 8 ⟨[7,8,9],by decide⟩ 1 5),.call 0 (.free 8200),.run (.send 0 (some 32))]
  have moves : ((clients farClients).run (Clients.start heaps) events).isSome := by decide +kernel
  have meets : (clients farClients).Meets (Behaves farClients) (Clients.start heaps) events := by decide +kernel
  obtain ⟨s,ran⟩ := Option.isSome_iff_exists.mp moves
  exact ⟨heaps,s,ran,barrier_undisturbed farClients (fun _ => (Option.some_get _).symm) events meets ran⟩

end OpenShmem
