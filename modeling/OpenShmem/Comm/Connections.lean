import OpenShmem.Comm.Wireup
import OpenShmem.Library.Machine
import Mathlib.Data.List.Basic

namespace OpenShmem

-- The wire-up of all PEs. A connection stands for the command socket and the data socket
-- that one round sets up on both sides; `linked` lists the rounds done, client first.
structure Wiring where
  todo : Nat → List Action
  pending : List (Nat × Nat)
  linked : List (Nat × Nat)
  sockets : Nat → Nat → Option Nat

-- A client's connection reaches the server's backlog; the server accepts any that did.
inductive WireEvent where
  | arrive (client : Nat)
  | accept (server client : Nat)
deriving DecidableEq, Repr

def setSocket (sockets : Nat → Nat → Option Nat) (me index peer : Nat) : Nat → Nat → Option Nat :=
  Function.update sockets me (Function.update (sockets me) index (some peer))

def Wiring.start (job : Job) : Wiring :=
  ⟨fun me => if me < job.n then wireProgram job me else [],[],[],fun _ _ => none⟩

def Wiring.step (job : Job) (s : Wiring) : WireEvent → Option Wiring
  | .arrive client =>
    match s.todo client with
    | .connect pe _ :: _ =>
      if (client,pe) ∈ s.pending then none else some {s with pending := s.pending ++ [(client,pe)]}
    | _ => none
  | .accept server client =>
    match s.todo server,s.todo client with
    | .accept _ :: rest,.connect pe index :: others =>
      if pe = server ∧ (client,pe) ∈ s.pending then do
        let entry ← job.localityMap server client
        some ⟨Function.update (Function.update s.todo server rest) client others,
          s.pending.erase (client,pe),s.linked ++ [(client,pe)],
          setSocket (setSocket s.sockets client index server) server entry.index client⟩
      else none
    | _,_ => none

def wirings (job : Job) : Guarded.Machine Wiring WireEvent := ⟨Wiring.step job⟩

-- Every PE has run comm_remote_wireup.
def Wiring.Done (job : Job) (s : Wiring) : Prop := ∀ a < job.n, s.todo a = []

structure Wired (job : Job) (s : Wiring) : Prop where
  once : ∀ a < job.n, ∀ b < job.n, job.node a ≠ job.node b →
    s.linked.count (a,b) + s.linked.count (b,a) = 1
  established : ∀ a < job.n, ∀ k < (job.remotes a).length, ∃ b, s.sockets a k = some b

variable {job : Job} {s t : Wiring} {a b : Nat}

@[simp] theorem dials_accept : dials (.accept slot :: rest) = dials rest := rfl
@[simp] theorem dials_connect : dials (.connect pe index :: rest) = pe :: dials rest := rfl

theorem arrive_cases (moved : s.step job (.arrive a) = some t) :
    ∃ pending, t = {s with pending := pending} := by
  simp only [Wiring.step] at moved
  split at moved
  · split at moved
    · cases moved
    · cases moved
      exact ⟨_,rfl⟩
  · cases moved

theorem accept_cases (moved : s.step job (.accept b a) = some t) :
    ∃ slot rest index others entry, s.todo b = .accept slot :: rest ∧ s.todo a = .connect b index :: others ∧
      job.localityMap b a = some entry ∧
      t = ⟨Function.update (Function.update s.todo b rest) a others,s.pending.erase (a,b),s.linked ++ [(a,b)],
        setSocket (setSocket s.sockets a index b) b entry.index a⟩ := by
  simp only [Wiring.step] at moved
  split at moved
  · rename_i slot rest pe index others server client
    split at moved
    · rename_i both
      obtain ⟨same,_⟩ := both
      subst same
      obtain ⟨entry,found,made⟩ := Option.bind_eq_some_iff.mp moved
      cases made
      exact ⟨slot,rest,index,others,entry,server,client,found,rfl⟩
    · cases moved
  · cases moved

-- A socket entry leads to the PE whose index it has.
def Leads (job : Job) (sockets : Nat → Nat → Option Nat) (a b : Nat) : Prop :=
  sockets a ((job.remotes a).idxOf b) = some b

def Peers (job : Job) (a b : Nat) : Prop := a < job.n ∧ b < job.n ∧ job.node a ≠ job.node b

theorem Peers.symm (peers : Peers job a b) : Peers job b a := ⟨peers.2.1,peers.1,peers.2.2.symm⟩

theorem Peers.ne (peers : Peers job a b) : a ≠ b := by
  intro same
  subst same
  exact peers.2.2 rfl

theorem leads_set : Leads job (setSocket sockets a ((job.remotes a).idxOf b) b) a b := by
  simp [Leads,setSocket]

theorem Leads.set (leads : Leads job sockets a b) (here : Peers job a b) (there : Peers job c d) :
    Leads job (setSocket sockets c ((job.remotes c).idxOf d) d) a b := by
  unfold Leads setSocket at *
  by_cases same : a = c
  · subst c
    rw [Function.update_self]
    by_cases index : (job.remotes a).idxOf b = (job.remotes a).idxOf d
    · have member : b ∈ job.remotes a := Job.mem_remotes.mpr ⟨here.2.1,here.2.2⟩
      have equal := (List.idxOf_inj member).mp index
      subst d
      rw [Function.update_self]
    · rw [Function.update_of_ne index]
      exact leads
  · rw [Function.update_of_ne same]
    exact leads

structure Wiring.Sound (job : Job) (s : Wiring) : Prop where
  dialed : ∀ a < job.n, (s.linked.filter (·.1 = a)).map Prod.snd ++ dials (s.todo a) = dials (wireProgram job a)
  peers : ∀ p ∈ s.linked, Peers job p.1 p.2
  indexed : ∀ a < job.n, ∀ pe index, .connect pe index ∈ s.todo a →
    Peers job a pe ∧ index = (job.remotes a).idxOf pe
  idle : ∀ a, ¬ a < job.n → s.todo a = []
  leads : ∀ p ∈ s.linked, Leads job s.sockets p.1 p.2 ∧ Leads job s.sockets p.2 p.1
  filled : ∀ a k b, s.sockets a k = some b → k = (job.remotes a).idxOf b ∧ ((a,b) ∈ s.linked ∨ (b,a) ∈ s.linked)

-- An entry set to some PE is the one written now or one from before.
theorem setSocket_some (set : setSocket sockets c index d a k = some b) :
    (a = c ∧ k = index ∧ b = d) ∨ sockets a k = some b := by
  unfold setSocket at set
  by_cases owner : a = c
  · subst c
    rw [Function.update_self] at set
    by_cases here : k = index
    · subst k
      rw [Function.update_self] at set
      cases set
      exact Or.inl ⟨rfl,rfl,rfl⟩
    · rw [Function.update_of_ne here] at set
      exact Or.inr set
  · rw [Function.update_of_ne owner] at set
    exact Or.inr set

-- A new connection sets one entry on either side and leaves the others.
theorem Wiring.Sound.leads_link (sound : s.Sound job) (peers : Peers job a b) {p : Nat × Nat} (linked : p ∈ s.linked ++ [(a,b)]) :
    Leads job (setSocket (setSocket s.sockets a ((job.remotes a).idxOf b) b) b ((job.remotes b).idxOf a) a) p.1 p.2 ∧
      Leads job (setSocket (setSocket s.sockets a ((job.remotes a).idxOf b) b) b ((job.remotes b).idxOf a) a) p.2 p.1 := by
  rcases List.mem_append.mp linked with old | new
  · have known := sound.peers p old
    obtain ⟨forth,back⟩ := sound.leads p old
    exact ⟨(forth.set known peers).set known peers.symm,(back.set known.symm peers).set known.symm peers.symm⟩
  · cases List.mem_singleton.mp new
    exact ⟨leads_set.set peers peers.symm,leads_set⟩

theorem Wiring.Sound.filled_link (sound : s.Sound job)
    (set : setSocket (setSocket s.sockets a ((job.remotes a).idxOf b) b) b ((job.remotes b).idxOf a) a c k = some d) :
    k = (job.remotes c).idxOf d ∧ ((c,d) ∈ s.linked ++ [(a,b)] ∨ (d,c) ∈ s.linked ++ [(a,b)]) := by
  have here : (a,b) ∈ s.linked ++ [(a,b)] := List.mem_append_right _ List.mem_cons_self
  rcases setSocket_some set with ⟨rfl,rfl,rfl⟩ | set
  · exact ⟨rfl,Or.inr here⟩
  · rcases setSocket_some set with ⟨rfl,rfl,rfl⟩ | before
    · exact ⟨rfl,Or.inl here⟩
    · obtain ⟨index,linked⟩ := sound.filled c k d before
      exact ⟨index,linked.imp (List.mem_append_left _) (List.mem_append_left _)⟩

theorem wireActions_connect (member : .connect pe index ∈ wireActions job me call) :
    pe < job.n ∧ job.node me ≠ job.node pe ∧ index = (job.remotes me).idxOf pe := by
  cases call with
  | server stride =>
    obtain ⟨slot,_,found⟩ := List.mem_filterMap.mp member
    obtain ⟨entry,_,made⟩ := Option.bind_eq_some_iff.mp found
    split at made <;> cases made
  | client stride =>
    obtain ⟨target,reached,found⟩ := List.mem_filterMap.mp member
    obtain ⟨entry,stored,made⟩ := Option.bind_eq_some_iff.mp found
    have inside := strided_lt reached
    obtain ⟨again,also,near,index⟩ := job.map_eq me inside
    rw [stored] at also
    cases also
    split at made
    · cases made
    · rename_i remote
      cases made
      refine ⟨inside,fun same => remote (near.mpr same),index ?_⟩
      cases type : entry.type with
      | near => exact False.elim (remote type)
      | remote => rfl

theorem start_sound (job : Job) : (Wiring.start job).Sound job := by
  refine ⟨?_,by simp [Wiring.start],?_,?_,by simp [Wiring.start],by simp [Wiring.start]⟩
  · intro a inside
    simp [Wiring.start,inside]
  · intro a inside pe index member
    simp only [Wiring.start,if_pos inside] at member
    obtain ⟨call,_,member⟩ := List.mem_flatMap.mp member
    obtain ⟨below,other,same⟩ := wireActions_connect member
    exact ⟨⟨inside,below,other⟩,same⟩
  · intro a outside
    simp [Wiring.start,outside]

theorem step_sound (sound : s.Sound job) (moved : s.step job event = some t) : t.Sound job := by
  cases event with
  | arrive client =>
    obtain ⟨pending,rfl⟩ := arrive_cases moved
    exact ⟨sound.dialed,sound.peers,sound.indexed,sound.idle,sound.leads,sound.filled⟩
  | accept server client =>
    obtain ⟨slot,rest,index,others,entry,atServer,atClient,found,rfl⟩ := accept_cases moved
    have inside : client < job.n := by
      by_cases inside : client < job.n
      · exact inside
      · have idle := sound.idle client inside
        rw [atClient] at idle
        cases idle
    obtain ⟨peers,here⟩ := sound.indexed client inside server index (by rw [atClient]; exact List.mem_cons_self)
    subst index
    obtain ⟨again,also,_,there⟩ := job.index_eq inside peers.symm.2.2
    rw [found] at also
    cases also
    have different := peers.ne
    refine ⟨?_,?_,?_,?_,?_,?_⟩
    · intro a below
      have dialed := sound.dialed a below
      simp only [List.filter_append,List.map_append]
      by_cases atA : a = client
      · subst a
        rw [atClient] at dialed
        rw [Function.update_self]
        simpa using dialed
      · rw [Function.update_of_ne atA]
        by_cases onB : a = server
        · subst a
          rw [atServer] at dialed
          rw [Function.update_self]
          simpa [Ne.symm atA] using dialed
        · rw [Function.update_of_ne onB]
          simpa [Ne.symm atA] using dialed
    · intro p member
      rcases List.mem_append.mp member with old | new
      · exact sound.peers p old
      · cases List.mem_singleton.mp new
        exact peers
    · intro a below pe index member
      refine sound.indexed a below pe index ?_
      simp only at member
      by_cases atA : a = client
      · subst a
        rw [Function.update_self] at member
        rw [atClient]
        exact List.mem_cons_of_mem _ member
      · rw [Function.update_of_ne atA] at member
        by_cases onB : a = server
        · subst a
          rw [Function.update_self] at member
          rw [atServer]
          exact List.mem_cons_of_mem _ member
        · rw [Function.update_of_ne onB] at member
          exact member
    · intro a outside
      have idle := sound.idle a outside
      have notClient : a ≠ client := fun same => outside (same ▸ inside)
      have notServer : a ≠ server := fun same => outside (same ▸ peers.2.1)
      simp only [Function.update_of_ne notClient,Function.update_of_ne notServer,idle]
    · intro p member
      simp only [there]
      exact sound.leads_link peers member
    · intro a k b set
      simp only [there] at set
      exact sound.filled_link set

-- How often a pair occurs, read off the sublist of its first member.
theorem count_pair (pairs : List (Nat × Nat)) :
    pairs.count (a,b) = ((pairs.filter (·.1 = a)).map Prod.snd).count b := by
  induction pairs with
  | nil => rfl
  | cons pair rest ih =>
    obtain ⟨c,d⟩ := pair
    by_cases first : c = a
    · subst c
      by_cases second : d = b
      · simp [second,ih]
      · simp [second,ih]
    · simp [first,ih]

theorem linked_count (sound : s.Sound job) (done : s.Done job) (peers : Peers job a b) :
    s.linked.count (a,b) = (dials (wireProgram job a)).count b := by
  have dialed := sound.dialed a peers.1
  rw [done a peers.1] at dialed
  rw [count_pair,← dialed]
  simp [dials]

theorem count_le_one (peers : Peers job a b) : (dials (wireProgram job a)).count b ≤ 1 ∧
    (0 < (dials (wireProgram job a)).count b ↔ Calls a b) := by
  obtain ⟨member,once⟩ := program_dials peers.1 peers.2.1
  refine ⟨List.nodup_iff_count_le_one.mp once b,?_⟩
  rw [List.count_pos_iff,member]
  exact ⟨And.right,fun calls => ⟨peers.2.2,calls⟩⟩

theorem Wiring.Sound.linked_iff (sound : s.Sound job) (done : s.Done job) (peers : Peers job a b) :
    (a,b) ∈ s.linked ↔ Calls a b := by
  rw [← List.count_pos_iff,linked_count sound done peers]
  exact (count_le_one peers).2

-- After the wire-up a socket is there for every PE on another node that does not clash, and
-- for no other.
theorem Wiring.Sound.leads_iff (sound : s.Sound job) (done : s.Done job) (peers : Peers job a b) :
    Leads job s.sockets a b ↔ ¬ Clash a b := by
  rw [← calls_iff peers.ne,← sound.linked_iff done peers,← sound.linked_iff done peers.symm]
  constructor
  · intro leads
    exact (sound.filled a _ b leads).2
  · intro linked
    rcases linked with called | accepted
    · exact (sound.leads _ called).1
    · exact (sound.leads _ accepted).2

-- Every completed wire-up connects every pair of PEs on different nodes exactly once, and
-- sets up every socket, if and only if no such pair clashes.
theorem wired_iff (job : Job) (events : List WireEvent)
    (ran : (wirings job).run (Wiring.start job) events = some s) (done : s.Done job) :
    Wired job s ↔ ∀ a < job.n, ∀ b < job.n, job.node a ≠ job.node b → ¬ Clash a b := by
  have sound : s.Sound job :=
    Guarded.Machine.run_invariant (fun _ _ _ => step_sound) (start_sound job) ran
  constructor
  · intro wired a here b there other clash
    have peers : Peers job a b := ⟨here,there,other⟩
    have once := wired.once a here b there other
    rw [linked_count sound done peers,linked_count sound done peers.symm] at once
    have calls : Calls a b ∨ Calls b a := by
      rcases Nat.eq_zero_or_pos ((dials (wireProgram job a)).count b) with none | some
      · exact Or.inr ((count_le_one peers.symm).2.mp (by omega))
      · exact Or.inl ((count_le_one peers).2.mp some)
    exact (calls_iff clash.1).mp calls clash
  · intro apart
    have counts : ∀ a b, Peers job a b → s.linked.count (a,b) + s.linked.count (b,a) = 1 := by
      intro a b peers
      have either := (calls_iff peers.ne).mpr (apart a peers.1 b peers.2.1 peers.2.2)
      have notBoth := calls_once (a := a) (b := b)
      obtain ⟨low,one⟩ := count_le_one peers
      obtain ⟨low',two⟩ := count_le_one peers.symm
      rw [linked_count sound done peers,linked_count sound done peers.symm]
      rcases either with calls | calls
      · have pos := one.mpr calls
        have zero : ¬ 0 < (dials (wireProgram job b)).count a := fun also => notBoth ⟨calls,two.mp also⟩
        omega
      · have pos := two.mpr calls
        have zero : ¬ 0 < (dials (wireProgram job a)).count b := fun also => notBoth ⟨one.mp also,calls⟩
        omega
    refine ⟨fun a here b there other => counts a b ⟨here,there,other⟩,?_⟩
    intro a here k below
    have member : (job.remotes a)[k] ∈ job.remotes a := List.getElem_mem below
    obtain ⟨there,other⟩ := Job.mem_remotes.mp member
    have peers : Peers job a (job.remotes a)[k] := ⟨here,there,other⟩
    have index : (job.remotes a).idxOf (job.remotes a)[k] = k := (job.remotes_nodup a).idxOf_getElem k below
    have leads := (sound.leads_iff done peers).mpr (apart a here _ there other)
    unfold Leads at leads
    rw [index] at leads
    exact ⟨_,leads⟩

def threeNodes : Job where
  n := 3
  small := by decide
  node pe := if pe = 0 then "a" else if pe = 1 then "b" else "c"
  hosts _ := [⟨"b",[1]⟩,⟨"a",[0]⟩,⟨"c",[2]⟩]
  listed _ := by decide
  placed _ := by decide

-- Three PEs on nodes of their own are wired up completely.
theorem wired_three : ∃ s, (wirings threeNodes).run (Wiring.start threeNodes)
    [.arrive 1,.accept 0 1,.arrive 1,.accept 2 1,.arrive 2,.accept 0 2] = some s ∧ Wired threeNodes s := by
  let events : List WireEvent := [.arrive 1,.accept 0 1,.arrive 1,.accept 2 1,.arrive 2,.accept 0 2]
  have final : ((wirings threeNodes).run (Wiring.start threeNodes) events).map
      (fun s => (List.range 3).map s.todo) = some [[],[],[]] := by decide +kernel
  obtain ⟨s,ran,todo⟩ := Option.map_eq_some_iff.mp final
  have done : s.Done threeNodes := by
    intro a inside
    have listed : s.todo a ∈ (List.range 3).map s.todo := List.mem_map_of_mem (List.mem_range.mpr inside)
    rw [todo] at listed
    simpa using listed
  refine ⟨s,ran,(wired_iff threeNodes events ran done).mpr ?_⟩
  intro a here b there _ ⟨different,parity,k,bit,bit'⟩
  have zero : a / 2 = 0 ∨ b / 2 = 0 := by
    unfold threeNodes at here there
    simp only at here there
    omega
  rcases zero with zero | zero
  · exact bit.above (Nat.lt_succ_self k) (by rw [zero,Nat.zero_mod])
  · exact bit'.above (Nat.lt_succ_self k) (by rw [zero,Nat.zero_mod])

def twoNodes : Job where
  n := 7
  small := by decide
  node pe := if pe = 2 then "b" else "a"
  hosts _ := [⟨"a",[0,1,3,4,5,6]⟩,⟨"b",[2]⟩]
  listed _ := by decide
  placed _ := by decide

-- PEs 2 and 6 never meet, although every PE gets through its wire-up.
theorem two_and_six_unconnected :
    ¬ ∀ (job : Job) (events : List WireEvent) (s : Wiring),
      (wirings job).run (Wiring.start job) events = some s → s.Done job → Wired job s := by
  intro claim
  let events : List WireEvent := [.arrive 1,.accept 2 1,.arrive 3,.accept 2 3,.arrive 5,.accept 2 5,
    .arrive 2,.accept 0 2,.arrive 2,.accept 4 2]
  have final : ((wirings twoNodes).run (Wiring.start twoNodes) events).map
      (fun s => ((List.range 7).map s.todo,s.linked)) =
        some ([[],[],[],[],[],[],[]],[(1,2),(3,2),(5,2),(2,0),(2,4)]) := by decide +kernel
  obtain ⟨s,ran,observed⟩ := Option.map_eq_some_iff.mp final
  obtain ⟨todo,linked⟩ := Prod.mk.inj observed
  have done : s.Done twoNodes := by
    intro a inside
    have listed : s.todo a ∈ (List.range 7).map s.todo := List.mem_map_of_mem (List.mem_range.mpr inside)
    rw [todo] at listed
    simpa using listed
  have once := (claim twoNodes events s ran done).once 2 (by decide) 6 (by decide) (by decide)
  rw [linked] at once
  exact absurd once (by decide)

end OpenShmem
