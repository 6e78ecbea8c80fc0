import OpenShmem.Comm.Handshake

namespace OpenShmem

-- How far a command connection is, up to where both sides are done with it. In the last
-- two the client is done, and its data connection waits at the server.
inductive Phase where
  | absent
  | pending
  | accepted
  | acknowledged
  | greeted
  | named
  | identified
  | joined (d : Connection)
  | paired (d : Connection)

namespace Phase

def client (c : Connection) : Phase → Option Stage
  | .pending | .accepted | .acknowledged => some (.connected c)
  | .greeted => some (.greeted c)
  | .named | .identified => some (.named c)
  | .absent | .joined _ | .paired _ => none

def server (job : Job) (c : Connection) : Phase → Option Stage
  | .accepted => some (.accepted c)
  | .acknowledged | .greeted | .named | .joined _ => some (.acknowledged c)
  | .identified | .paired _ => some (.identified c ((job.remotes c.server).idxOf c.client))
  | .absent | .pending => none

def ack : Phase → Bool
  | .acknowledged => true
  | _ => false

def rank (c : Connection) : Phase → Option Nat
  | .named | .joined _ => some c.client
  | _ => none

def data : Phase → List Connection
  | .joined d | .paired d => [d]
  | _ => []

end Phase

def Stage.socket : Stage → Option Connection
  | .idle => none
  | .connected c | .greeted c | .named c | .accepted c | .acknowledged c | .identified c _ => some c

variable {job : Job} {s t : Handshakes} {φ : Connection → Phase} {a b x : Nat} {c d e : Connection} {p : Phase} {stage : Stage}

theorem Phase.client_socket (held : p.client c = some stage) : stage.socket = some c := by
  cases p <;> simp only [Phase.client,reduceCtorEq,Option.some.injEq] at held <;> subst held <;> rfl

theorem Phase.server_socket (held : p.server job c = some stage) : stage.socket = some c := by
  cases p <;> simp only [Phase.server,reduceCtorEq,Option.some.injEq] at held <;> subst held <;> rfl

-- The phase after the data connection is made.
theorem Phase.join (named : p = .named ∨ p = .identified) (d : Connection) : ∃ next : Phase, next.client c = none ∧
    next.server job c = p.server job c ∧ next.data = [d] ∧ next.ack = p.ack ∧ next.rank c = p.rank c ∧
    next ≠ .pending ∧ p.data = [] := by
  rcases named with named | identified
  · subst named
    exact ⟨.joined d,rfl,rfl,rfl,rfl,rfl,by simp,rfl⟩
  · subst identified
    exact ⟨.paired d,rfl,rfl,rfl,rfl,rfl,by simp,rfl⟩

theorem Phase.serves (named : p = .named ∨ p = .identified) : ∃ stage, p.server job c = some stage := by
  rcases named with named | identified
  · subst named
    exact ⟨_,rfl⟩
  · subst identified
    exact ⟨_,rfl⟩

-- What the state holds of a connection in its phase. The data backlog of a server in a
-- round has the one data connection that belongs to the round, or none.
structure Handshakes.At (job : Job) (s : Handshakes) (c : Connection) (p : Phase) : Prop where
  known : p ≠ .absent → Peers job c.client c.server ∧ c.serial < s.made
  client : ∀ stage, p.client c = some stage → s.stage c.client = stage ∧
    ∃ index rest, s.todo c.client = .connect c.server index :: rest
  server : ∀ stage, p.server job c = some stage → s.stage c.server = stage ∧
    (∃ slot rest, s.todo c.server = .accept slot :: rest) ∧ s.dataBacklog c.server = p.data
  waits : ∀ b, c ∈ s.cmdBacklog b ↔ b = c.server ∧ p = .pending
  acks : s.acks c = p.ack
  ranks : s.ranks c = p.rank c
  dialed : ∀ d ∈ p.data, (c,d) ∈ s.dialed

structure Handshakes.Tracks (job : Job) (s : Handshakes) (φ : Connection → Phase) : Prop where
  phase : ∀ c, s.At job c (φ c)
  owned : ∀ a c, (s.stage a).socket = some c →
    (c.client = a ∧ (φ c).client c = some (s.stage a)) ∨ (c.server = a ∧ (φ c).server job c = some (s.stage a))
  drained : ∀ b, s.dataBacklog b = [] ∨ ∃ c, (s.stage b).socket = some c ∧ c.server = b
  indexed : ∀ a pe index, .connect pe index ∈ s.todo a → Peers job a pe ∧ index = (job.remotes a).idxOf pe
  once : ∀ b, (s.cmdBacklog b).Nodup

-- A step of PE x that is about the connection c, which gets to the next phase.
structure Handshakes.Moves (job : Job) (s t : Handshakes) (φ : Connection → Phase) (x : Nat) (c : Connection)
    (next : Phase) : Prop where
  stage : ∀ y, y ≠ x → t.stage y = s.stage y
  todo : ∀ y, y ≠ x → t.todo y = s.todo y
  before : ∀ e, (s.stage x).socket = some e → e = c
  after : t.stage x = .idle ∨ (c.client = x ∧ next.client c = some (t.stage x)) ∨
    (c.server = x ∧ next.server job c = some (t.stage x))
  acks : ∀ e, e ≠ c → t.acks e = s.acks e
  ranks : ∀ e, e ≠ c → t.ranks e = s.ranks e
  cmdBacklog : ∀ b e, e ≠ c → (e ∈ t.cmdBacklog b ↔ e ∈ s.cmdBacklog b)
  dataBacklog : ∀ b, t.dataBacklog b = s.dataBacklog b ∨ ((s.stage b).socket = some c ∧ c.server = b)
  dialed : s.dialed ⊆ t.dialed
  made : s.made ≤ t.made
  rest : t.todo x ⊆ s.todo x
  settled : t.At job c next
  side : (c.client = x ∧ next.server job c = (φ c).server job c) ∨ (c.server = x ∧ next.client c = (φ c).client c)
  drained : t.dataBacklog c.server = [] ∨ (t.stage c.server).socket = some c ∨
    (c.server ≠ x ∧ t.dataBacklog c.server = s.dataBacklog c.server)
  once : ∀ b, (t.cmdBacklog b).Nodup

namespace Handshakes

-- A step about one connection leaves every other one in its phase.
theorem At.frame (moves : Moves job s t φ x c next) (other : e ≠ c) (here : s.At job e p) : t.At job e p := by
  have away : ∀ y, (s.stage y).socket = some e → y ≠ x := by
    intro y held same
    subst same
    exact other (moves.before e held)
  refine ⟨?_,?_,?_,?_,?_,?_,?_⟩
  · intro present
    obtain ⟨peers,old⟩ := here.known present
    exact ⟨peers,Nat.lt_of_lt_of_le old moves.made⟩
  · intro stage held
    obtain ⟨same,head⟩ := here.client stage held
    have apart := away e.client (same ▸ Phase.client_socket held)
    rw [moves.stage _ apart,moves.todo _ apart]
    exact ⟨same,head⟩
  · intro stage held
    obtain ⟨same,head,data⟩ := here.server stage held
    have mine : (s.stage e.server).socket = some e := same ▸ Phase.server_socket held
    have apart := away e.server mine
    have kept : t.dataBacklog e.server = s.dataBacklog e.server := by
      rcases moves.dataBacklog e.server with kept | ⟨taken,_⟩
      · exact kept
      · rw [mine] at taken
        exact False.elim (other (Option.some.inj taken))
    rw [moves.stage _ apart,moves.todo _ apart,kept]
    exact ⟨same,head,data⟩
  · intro b
    rw [moves.cmdBacklog b e other]
    exact here.waits b
  · rw [moves.acks e other]
    exact here.acks
  · rw [moves.ranks e other]
    exact here.ranks
  · intro d member
    exact moves.dialed (here.dialed d member)

theorem Moves.after_socket (moves : Moves job s t φ x c next) (held : (t.stage x).socket = some e) : e = c := by
  rcases moves.after with idle | ⟨_,client⟩ | ⟨_,server⟩
  · rw [idle] at held
    cases held
  · have mine := Phase.client_socket client
    rw [held] at mine
    exact Option.some.inj mine
  · have mine := Phase.server_socket server
    rw [held] at mine
    exact Option.some.inj mine

theorem Tracks.move (tracks : Tracks job s φ) (moves : Moves job s t φ x c next) :
    Tracks job t (Function.update φ c next) := by
  refine ⟨?_,?_,?_,?_,moves.once⟩
  · intro e
    by_cases same : e = c
    · subst e
      rw [Function.update_self]
      exact moves.settled
    · rw [Function.update_of_ne same]
      exact (tracks.phase e).frame moves same
  · intro y e held
    by_cases here : y = x
    · subst y
      have same := moves.after_socket held
      subst same
      rw [Function.update_self]
      rcases moves.after with idle | either
      · rw [idle] at held
        cases held
      · exact either
    · rw [moves.stage y here] at held ⊢
      by_cases same : e = c
      · subst e
        rw [Function.update_self]
        rcases tracks.owned y c held with ⟨mine,client⟩ | ⟨mine,server⟩
        · rcases moves.side with ⟨also,_⟩ | ⟨_,kept⟩
          · exact False.elim (here (mine.symm.trans also))
          · exact Or.inl ⟨mine,kept.trans client⟩
        · rcases moves.side with ⟨_,kept⟩ | ⟨also,_⟩
          · exact Or.inr ⟨mine,kept.trans server⟩
          · exact False.elim (here (mine.symm.trans also))
      · rw [Function.update_of_ne same]
        exact tracks.owned y e held
  · intro b
    by_cases here : b = c.server
    · subst b
      rcases moves.drained with empty | held | ⟨away,kept⟩
      · exact Or.inl empty
      · exact Or.inr ⟨c,held,rfl⟩
      · rw [moves.stage _ away,kept]
        exact tracks.drained c.server
    · have kept : t.dataBacklog b = s.dataBacklog b := by
        rcases moves.dataBacklog b with kept | ⟨_,mine⟩
        · exact kept
        · exact False.elim (here mine.symm)
      rw [kept]
      rcases tracks.drained b with empty | ⟨e,held,mine⟩
      · exact Or.inl empty
      · by_cases same : e = c
        · subst e
          exact False.elim (here mine.symm)
        · have away : b ≠ x := by
            intro same'
            subst same'
            exact same (moves.before e held)
          rw [moves.stage b away]
          exact Or.inr ⟨e,held,mine⟩
  · intro y pe index member
    by_cases here : y = x
    · subst y
      exact tracks.indexed _ pe index (moves.rest member)
    · rw [moves.todo y here] at member
      exact tracks.indexed y pe index member

-- The phase of a connection, read off the stage of a PE that holds it.
theorem Tracks.connected (tracks : Tracks job s φ) (here : s.stage a = .connected c) :
    c.client = a ∧ (φ c = .pending ∨ φ c = .accepted ∨ φ c = .acknowledged) := by
  have held := tracks.owned a c (by rw [here]; rfl)
  rw [here] at held
  cases phase : φ c <;> simp_all [Phase.client,Phase.server]

theorem Tracks.greeted (tracks : Tracks job s φ) (here : s.stage a = .greeted c) :
    c.client = a ∧ φ c = .greeted := by
  have held := tracks.owned a c (by rw [here]; rfl)
  rw [here] at held
  cases phase : φ c <;> simp_all [Phase.client,Phase.server]

theorem Tracks.named (tracks : Tracks job s φ) (here : s.stage a = .named c) :
    c.client = a ∧ (φ c = .named ∨ φ c = .identified) := by
  have held := tracks.owned a c (by rw [here]; rfl)
  rw [here] at held
  cases phase : φ c <;> simp_all [Phase.client,Phase.server]

theorem Tracks.accepted (tracks : Tracks job s φ) (here : s.stage b = .accepted c) :
    c.server = b ∧ φ c = .accepted := by
  have held := tracks.owned b c (by rw [here]; rfl)
  rw [here] at held
  cases phase : φ c <;> simp_all [Phase.client,Phase.server]

theorem Tracks.acknowledged (tracks : Tracks job s φ) (here : s.stage b = .acknowledged c) :
    c.server = b ∧ (φ c = .acknowledged ∨ φ c = .greeted ∨ φ c = .named ∨ ∃ d, φ c = .joined d) := by
  have held := tracks.owned b c (by rw [here]; rfl)
  rw [here] at held
  cases phase : φ c <;> simp_all [Phase.client,Phase.server]

theorem Tracks.identified (tracks : Tracks job s φ) (here : s.stage b = .identified c index) :
    c.server = b ∧ index = (job.remotes b).idxOf c.client ∧ (φ c = .identified ∨ ∃ d, φ c = .paired d) := by
  have held := tracks.owned b c (by rw [here]; rfl)
  rw [here] at held
  cases phase : φ c <;> simp_all [Phase.client,Phase.server] <;> obtain ⟨rfl,same⟩ := held <;> exact same.symm

theorem Tracks.absent (tracks : Tracks job s φ) (fresh : s.made ≤ c.serial) : φ c = .absent := by
  by_contra present
  have old := ((tracks.phase c).known present).2
  omega

theorem stage_here {stages : Nat → Stage} : Function.update stages x stage x = stage := Function.update_self _ _ _

theorem mem_queued {backlog : Nat → List Connection} {b : Nat} :
    e ∈ Function.update backlog x (backlog x ++ [c]) b ↔ e ∈ backlog b ∨ (b = x ∧ e = c) := by
  by_cases here : b = x
  · subst b
    rw [Function.update_self,List.mem_append,List.mem_singleton]
    exact or_congr_right (and_iff_right rfl).symm
  · rw [Function.update_of_ne here]
    exact (or_iff_left fun both => here both.1).symm

theorem mem_taken {backlog : Nat → List Connection} {b : Nat} (once : ∀ b, (backlog b).Nodup) :
    e ∈ Function.update backlog x ((backlog x).erase c) b ↔ e ∈ backlog b ∧ ¬ (b = x ∧ e = c) := by
  by_cases here : b = x
  · subst b
    rw [Function.update_self,(once x).mem_erase_iff,and_comm,and_iff_right rfl]
  · rw [Function.update_of_ne here]
    exact (and_iff_left fun both => here both.1).symm

theorem nodup_queued {backlog : Nat → List Connection} {b : Nat} (once : ∀ b, (backlog b).Nodup) (new : c ∉ backlog x) :
    (Function.update backlog x (backlog x ++ [c]) b).Nodup := by
  by_cases here : b = x
  · subst b
    rw [Function.update_self]
    refine List.nodup_append.mpr ⟨once x,List.nodup_singleton c,?_⟩
    intro e member f last same
    subst same
    exact new (List.mem_singleton.mp last ▸ member)
  · rw [Function.update_of_ne here]
    exact once b

theorem nodup_taken {backlog : Nat → List Connection} {b : Nat} (once : ∀ b, (backlog b).Nodup) :
    (Function.update backlog x ((backlog x).erase c) b).Nodup := by
  by_cases here : b = x
  · subst b
    rw [Function.update_self]
    exact (once x).erase c
  · rw [Function.update_of_ne here]
    exact once b

theorem cmdConnect_tracks (tracks : Tracks job s φ) (moved : s.cmdConnect a = some t) : ∃ ψ, Tracks job t ψ := by
  obtain ⟨pe,index,rest,idle,head,_,rfl⟩ := cmdConnect_iff.mp moved
  let c : Connection := ⟨a,pe,s.made⟩
  have absent : φ c = .absent := tracks.absent (Nat.le_refl _)
  have old := tracks.phase c
  rw [absent] at old
  obtain ⟨peers,_⟩ := tracks.indexed a pe index (by rw [head]; exact List.mem_cons_self)
  have new : ∀ b, c ∉ s.cmdBacklog b := by
    intro b member
    cases ((old.waits b).mp member).2
  refine ⟨Function.update φ c .pending,tracks.move (x := a) ?_⟩
  exact {
    stage := fun y away => Function.update_of_ne away _ _
    todo := fun y _ => rfl
    before := by
      intro e held
      rw [idle] at held
      cases held
    after := Or.inr (Or.inl ⟨rfl,congrArg some stage_here.symm⟩)
    acks := fun e _ => rfl
    ranks := fun e _ => rfl
    cmdBacklog := fun b e other => mem_queued.trans (or_iff_left fun both => other both.2)
    dataBacklog := fun b => Or.inl rfl
    dialed := List.Subset.refl _
    made := Nat.le_succ _
    rest := List.Subset.refl _
    settled := {
      known := fun _ => ⟨peers,Nat.lt_succ_self _⟩
      client := by
        intro stage held
        cases held
        exact ⟨Function.update_self _ _ _,index,rest,head⟩
      server := fun stage held => by cases held
      waits := by
        intro b
        refine mem_queued.trans ((or_iff_right (new b)).trans ?_)
        exact and_congr_right fun _ => iff_of_true rfl rfl
      acks := old.acks
      ranks := old.ranks
      dialed := fun d member => by cases member }
    side := Or.inl ⟨rfl,by rw [absent]; rfl⟩
    drained := Or.inr (Or.inr ⟨peers.ne.symm,rfl⟩)
    once := fun b => nodup_queued tracks.once (new pe) }

theorem Tracks.idle_drained (tracks : Tracks job s φ) (idle : s.stage b = .idle) : s.dataBacklog b = [] := by
  rcases tracks.drained b with empty | ⟨e,held,_⟩
  · exact empty
  · rw [idle] at held
    cases held

theorem acceptCmd_tracks (tracks : Tracks job s φ) (moved : s.acceptCmd b c = some t) : ∃ ψ, Tracks job t ψ := by
  obtain ⟨slot,rest,idle,head,waits,rfl⟩ := acceptCmd_iff.mp moved
  have old := tracks.phase c
  obtain ⟨mine,pending⟩ := (old.waits b).mp waits
  subst mine
  rw [pending] at old
  have known := old.known (by simp)
  have apart : c.client ≠ c.server := known.1.ne
  have empty := tracks.idle_drained idle
  refine ⟨Function.update φ c .accepted,tracks.move (x := c.server) ?_⟩
  exact {
    stage := fun y away => Function.update_of_ne away _ _
    todo := fun y _ => rfl
    before := by
      intro e held
      rw [idle] at held
      cases held
    after := Or.inr (Or.inr ⟨rfl,congrArg some stage_here.symm⟩)
    acks := fun e _ => rfl
    ranks := fun e _ => rfl
    cmdBacklog := fun b e other => (mem_taken tracks.once).trans (and_iff_left fun both => other both.2)
    dataBacklog := fun b => Or.inl rfl
    dialed := List.Subset.refl _
    made := Nat.le_refl _
    rest := List.Subset.refl _
    settled := {
      known := fun _ => known
      client := by
        intro stage held
        obtain ⟨same,found⟩ := old.client stage held
        exact ⟨(Function.update_of_ne apart _ _).trans same,found⟩
      server := by
        intro stage held
        cases held
        exact ⟨Function.update_self _ _ _,⟨slot,rest,head⟩,empty⟩
      waits := by
        intro b
        refine (mem_taken tracks.once).trans (iff_of_false ?_ (fun both => by cases both.2))
        intro both
        exact both.2 ⟨((old.waits b).mp both.1).1,rfl⟩
      acks := old.acks
      ranks := old.ranks
      dialed := fun d member => by cases member }
    side := Or.inr ⟨rfl,by rw [pending]; rfl⟩
    drained := Or.inl empty
    once := fun b => nodup_taken tracks.once }

-- What a PE says or hears on the command socket of its round.
structure Talks (job : Job) (s t : Handshakes) (φ : Connection → Phase) (x : Nat) (c : Connection) (next : Phase)
    (stage : Stage) : Prop where
  same : t = {s with
    stage := Function.update s.stage x stage
    acks := t.acks
    ranks := t.ranks
    socketsCmd := t.socketsCmd}
  held : (s.stage x).socket = some c
  present : φ c ≠ .absent ∧ φ c ≠ .pending ∧ next ≠ .pending
  side : (c.client = x ∧ next.client c = some stage ∧ next.server job c = (φ c).server job c) ∨
    (c.server = x ∧ next.server job c = some stage ∧ next.client c = (φ c).client c)
  data : next.data = (φ c).data
  acks : t.acks c = next.ack ∧ ∀ e, e ≠ c → t.acks e = s.acks e
  ranks : t.ranks c = next.rank c ∧ ∀ e, e ≠ c → t.ranks e = s.ranks e

theorem Talks.settled (talks : Talks job s t φ x c next stage) (tracks : Tracks job s φ) : t.At job c next := by
  have old := tracks.phase c
  have known := old.known talks.present.1
  have apart := known.1.ne
  have owned := tracks.owned x c talks.held
  have stages : t.stage = Function.update s.stage x stage := by rw [talks.same]
  have todo : t.todo = s.todo := by rw [talks.same]
  have data : t.dataBacklog = s.dataBacklog := by rw [talks.same]
  have backlog : t.cmdBacklog = s.cmdBacklog := by rw [talks.same]
  have dialed : t.dialed = s.dialed := by rw [talks.same]
  have made : t.made = s.made := by rw [talks.same]
  refine ⟨?_,?_,?_,?_,talks.acks.1,talks.ranks.1,?_⟩
  · rw [made]
    exact fun _ => known
  · intro new held
    rw [stages,todo]
    rcases talks.side with ⟨mine,here,_⟩ | ⟨mine,_,kept⟩
    · subst mine
      have active : (φ c).client c = some (s.stage c.client) := by
        rcases owned with ⟨_,active⟩ | ⟨other,_⟩
        · exact active
        · exact False.elim (apart other.symm)
      rw [here] at held
      cases held
      exact ⟨stage_here,(old.client _ active).2⟩
    · subst mine
      rw [kept] at held
      obtain ⟨same,head⟩ := old.client _ held
      exact ⟨(Function.update_of_ne apart _ _).trans same,head⟩
  · intro new held
    rw [stages,todo,data,talks.data]
    rcases talks.side with ⟨mine,_,kept⟩ | ⟨mine,here,_⟩
    · subst mine
      rw [kept] at held
      obtain ⟨same,head⟩ := old.server _ held
      exact ⟨(Function.update_of_ne apart.symm _ _).trans same,head⟩
    · subst mine
      have active : (φ c).server job c = some (s.stage c.server) := by
        rcases owned with ⟨other,_⟩ | ⟨_,active⟩
        · exact False.elim (apart other)
        · exact active
      rw [here] at held
      cases held
      exact ⟨stage_here,(old.server _ active).2⟩
  · intro b
    rw [backlog]
    exact (old.waits b).trans (and_congr_right fun _ => iff_of_false talks.present.2.1 talks.present.2.2)
  · rw [dialed,talks.data]
    exact old.dialed

theorem Talks.moves (talks : Talks job s t φ x c next stage) (tracks : Tracks job s φ) : Moves job s t φ x c next := by
  have settled := talks.settled tracks
  have same := talks.same
  refine ⟨?_,?_,?_,?_,talks.acks.2,talks.ranks.2,?_,?_,?_,?_,?_,settled,?_,?_,?_⟩
  · intro y away
    rw [same]
    exact Function.update_of_ne away _ _
  · intro y _
    rw [same]
  · intro e held
    rw [talks.held] at held
    exact (Option.some.inj held).symm
  · have here : t.stage x = stage := by rw [same]; exact stage_here
    rw [here]
    rcases talks.side with ⟨mine,client,_⟩ | ⟨mine,server,_⟩
    · exact Or.inr (Or.inl ⟨mine,client⟩)
    · exact Or.inr (Or.inr ⟨mine,server⟩)
  · intro b e _
    rw [same]
  · intro b
    rw [same]
    exact Or.inl rfl
  · rw [same]
    exact List.Subset.refl _
  · rw [same]
  · rw [same]
    exact List.Subset.refl _
  · rcases talks.side with ⟨mine,_,kept⟩ | ⟨mine,_,kept⟩
    · exact Or.inl ⟨mine,kept⟩
    · exact Or.inr ⟨mine,kept⟩
  · rcases talks.side with ⟨mine,_,_⟩ | ⟨mine,server,_⟩
    · have apart : c.server ≠ x := by
        rw [← mine]
        exact ((tracks.phase c).known talks.present.1).1.ne.symm
      refine Or.inr (Or.inr ⟨apart,?_⟩)
      rw [same]
    · refine Or.inr (Or.inl ?_)
      rw [(settled.server _ server).1]
      exact Phase.server_socket server
  · rw [same]
    exact tracks.once

theorem sendAck_tracks (tracks : Tracks job s φ) (moved : s.sendAck b = some t) : ∃ ψ, Tracks job t ψ := by
  obtain ⟨c,here,same⟩ := sendAck_iff.mp moved
  obtain ⟨mine,phase⟩ := tracks.accepted here
  have ranks := (tracks.phase c).ranks
  rw [phase] at ranks
  have talks : Talks job s t φ b c .acknowledged (.acknowledged c) := by
    subst same
    exact {
      same := rfl
      held := by rw [here]; rfl
      present := by simp [phase]
      side := Or.inr ⟨mine,rfl,by rw [phase]; rfl⟩
      data := by rw [phase]; rfl
      acks := ⟨Function.update_self _ _ _,fun e other => Function.update_of_ne other _ _⟩
      ranks := ⟨ranks,fun e _ => rfl⟩ }
  exact ⟨_,tracks.move (talks.moves tracks)⟩

theorem receiveAck_tracks (tracks : Tracks job s φ) (moved : s.receiveAck a = some t) : ∃ ψ, Tracks job t ψ := by
  obtain ⟨c,here,sent,same⟩ := receiveAck_iff.mp moved
  obtain ⟨mine,phase⟩ := tracks.connected here
  have ranks := (tracks.phase c).ranks
  rw [(tracks.phase c).acks] at sent
  have phase : φ c = .acknowledged := by
    rcases phase with phase | phase | phase
    · rw [phase] at sent
      cases sent
    · rw [phase] at sent
      cases sent
    · exact phase
  rw [phase] at ranks
  have talks : Talks job s t φ a c .greeted (.greeted c) := by
    subst same
    exact {
      same := rfl
      held := by rw [here]; rfl
      present := by simp [phase]
      side := Or.inl ⟨mine,rfl,by rw [phase]; rfl⟩
      data := by rw [phase]; rfl
      acks := ⟨Function.update_self _ _ _,fun e other => Function.update_of_ne other _ _⟩
      ranks := ⟨ranks,fun e _ => rfl⟩ }
  exact ⟨_,tracks.move (talks.moves tracks)⟩

theorem sendRank_tracks (tracks : Tracks job s φ) (moved : s.sendRank a = some t) : ∃ ψ, Tracks job t ψ := by
  obtain ⟨c,here,same⟩ := sendRank_iff.mp moved
  obtain ⟨mine,phase⟩ := tracks.greeted here
  have acks := (tracks.phase c).acks
  rw [phase] at acks
  have talks : Talks job s t φ a c .named (.named c) := by
    subst same
    exact {
      same := rfl
      held := by rw [here]; rfl
      present := by simp [phase]
      side := Or.inl ⟨mine,rfl,by rw [phase]; rfl⟩
      data := by rw [phase]; rfl
      acks := ⟨acks,fun e _ => rfl⟩
      ranks := ⟨by rw [← mine]; exact Function.update_self _ _ _,fun e other => Function.update_of_ne other _ _⟩ }
  exact ⟨_,tracks.move (talks.moves tracks)⟩

-- The rank names the client, so the index is the client's.
theorem Tracks.rank_read (tracks : Tracks job s φ) (here : s.stage b = .acknowledged c) (sent : s.ranks c = some pe) :
    c.server = b ∧ pe = c.client ∧ (φ c = .named ∨ ∃ d, φ c = .joined d) := by
  obtain ⟨mine,phase⟩ := tracks.acknowledged here
  rw [(tracks.phase c).ranks] at sent
  rcases phase with phase | phase | phase | ⟨d,phase⟩
  · rw [phase] at sent
    cases sent
  · rw [phase] at sent
    cases sent
  · rw [phase] at sent
    exact ⟨mine,(Option.some.inj sent).symm,Or.inl phase⟩
  · rw [phase] at sent
    exact ⟨mine,(Option.some.inj sent).symm,Or.inr ⟨d,phase⟩⟩

theorem Tracks.rank_index (tracks : Tracks job s φ) (here : s.stage b = .acknowledged c) (sent : s.ranks c = some pe)
    (found : job.localityMap b pe = some entry) : Peers job c.client b ∧ entry.index = (job.remotes b).idxOf c.client := by
  obtain ⟨mine,named,phase⟩ := tracks.rank_read here sent
  subst mine
  have present : φ c ≠ .absent := by
    rcases phase with phase | ⟨d,phase⟩ <;> simp [phase]
  obtain ⟨peers,_⟩ := (tracks.phase c).known present
  obtain ⟨again,also,_,index⟩ := job.index_eq peers.1 peers.symm.2.2
  rw [named] at found
  rw [also] at found
  cases found
  exact ⟨peers,index⟩

theorem receiveRank_tracks (tracks : Tracks job s φ) (moved : s.receiveRank job b = some t) : ∃ ψ, Tracks job t ψ := by
  obtain ⟨c,pe,entry,here,sent,found,same⟩ := receiveRank_iff.mp moved
  obtain ⟨mine,_,phase⟩ := tracks.rank_read here sent
  obtain ⟨_,index⟩ := tracks.rank_index here sent found
  subst mine
  have acks := (tracks.phase c).acks
  -- The two phases differ in the data socket only, which the rank does not touch.
  have told : ∃ next : Phase, (φ c ≠ .absent ∧ φ c ≠ .pending ∧ next ≠ .pending) ∧
      next.server job c = some (.identified c ((job.remotes c.server).idxOf c.client)) ∧ next.client c = (φ c).client c ∧
      next.data = (φ c).data ∧ next.ack = (φ c).ack ∧ next.rank c = none := by
    rcases phase with phase | ⟨d,phase⟩
    · exact ⟨.identified,by simp [phase],rfl,by rw [phase]; rfl,by rw [phase]; rfl,by rw [phase]; rfl,rfl⟩
    · exact ⟨.paired d,by simp [phase],rfl,by rw [phase]; rfl,by rw [phase]; rfl,by rw [phase]; rfl,rfl⟩
  obtain ⟨next,present,server,client,data,ack,rank⟩ := told
  have talks : Talks job s t φ c.server c next (.identified c entry.index) := by
    subst same
    exact {
      same := rfl
      held := by rw [here]; rfl
      present := present
      side := Or.inr ⟨rfl,by rw [index]; exact server,client⟩
      data := data
      acks := ⟨acks.trans ack.symm,fun e _ => rfl⟩
      ranks := ⟨(Function.update_self _ _ _).trans rank.symm,fun e other => Function.update_of_ne other _ _⟩ }
  exact ⟨_,tracks.move (talks.moves tracks)⟩

theorem Tracks.target (tracks : Tracks job s φ) (here : s.stage a = .named c) (head : s.todo a = .connect pe index :: rest) :
    pe = c.server := by
  obtain ⟨mine,phase⟩ := tracks.named here
  subst mine
  have active : (φ c).client c = some (.named c) := by
    rcases phase with phase | phase <;> rw [phase] <;> rfl
  obtain ⟨_,_,_,also⟩ := (tracks.phase c).client _ active
  rw [head] at also
  cases also
  rfl

theorem dataConnect_tracks (tracks : Tracks job s φ) (moved : s.dataConnect a = some t) : ∃ ψ, Tracks job t ψ := by
  obtain ⟨c,pe,index,rest,here,head,_,same⟩ := dataConnect_iff.mp moved
  obtain ⟨mine,phase⟩ := tracks.named here
  subst mine
  have old := tracks.phase c
  have present : φ c ≠ .absent ∧ φ c ≠ .pending := by
    rcases phase with phase | phase <;> simp [phase]
  have known := old.known present.1
  have target := tracks.target here head
  subst target
  obtain ⟨stage,serves⟩ := Phase.serves phase
  obtain ⟨serving,found,data⟩ := old.server _ serves
  let d : Connection := ⟨c.client,c.server,s.made⟩
  obtain ⟨next,client,server,joined,ack,rank,later,nothing⟩ := Phase.join phase d
  rw [nothing] at data
  have apart := known.1.ne
  have held : (s.stage c.server).socket = some c := by
    rw [serving]
    exact Phase.server_socket serves
  have moves : Moves job s t φ c.client c next := by
    subst same
    exact {
      stage := fun y away => Function.update_of_ne away _ _
      todo := fun y away => Function.update_of_ne away _ _
      before := by
        intro e also
        rw [here] at also
        exact (Option.some.inj also).symm
      after := Or.inl stage_here
      acks := fun e _ => rfl
      ranks := fun e _ => rfl
      cmdBacklog := fun b e _ => Iff.rfl
      dataBacklog := by
        intro b
        by_cases target : b = c.server
        · subst b
          exact Or.inr ⟨held,rfl⟩
        · exact Or.inl (Function.update_of_ne target _ _)
      dialed := List.subset_append_left _ _
      made := Nat.le_succ _
      rest := by
        intro action member
        rw [head]
        simp only [Function.update_self] at member
        exact List.mem_cons_of_mem _ member
      settled := {
        known := fun _ => ⟨known.1,Nat.lt_succ_of_lt known.2⟩
        client := fun stage also => by rw [client] at also; cases also
        server := by
          intro stage also
          rw [server,serves] at also
          cases also
          refine ⟨(Function.update_of_ne apart.symm _ _).trans serving,?_,?_⟩
          · simp only [Function.update_of_ne apart.symm]
            exact found
          · simp only [Function.update_self]
            rw [data,joined,List.nil_append]
        waits := fun b => (old.waits b).trans (and_congr_right fun _ => iff_of_false present.2 later)
        acks := old.acks.trans ack.symm
        ranks := old.ranks.trans rank.symm
        dialed := by
          intro e member
          rw [joined,List.mem_singleton] at member
          subst e
          exact List.mem_append_right _ List.mem_cons_self }
      side := Or.inl ⟨rfl,server⟩
      drained := Or.inr (Or.inl (by simp only [Function.update_of_ne apart.symm]; exact held))
      once := tracks.once }
  exact ⟨_,tracks.move moves⟩

-- Whatever the server takes from its data backlog belongs to its round.
theorem Tracks.accepts (tracks : Tracks job s φ) (here : s.stage b = .identified c index) (waits : d ∈ s.dataBacklog b) :
    c.server = b ∧ index = (job.remotes b).idxOf c.client ∧ φ c = .paired d ∧ s.dataBacklog b = [d] := by
  obtain ⟨mine,same,phase⟩ := tracks.identified here
  have old := tracks.phase c
  rcases phase with phase | ⟨e,phase⟩
  · rw [phase] at old
    obtain ⟨_,_,empty⟩ := old.server _ rfl
    rw [mine] at empty
    rw [empty] at waits
    cases waits
  · rw [phase] at old
    obtain ⟨_,_,one⟩ := old.server _ rfl
    rw [mine] at one
    rw [one] at waits
    cases List.mem_singleton.mp waits
    exact ⟨mine,same,phase,one⟩

theorem acceptData_tracks (tracks : Tracks job s φ) (moved : s.acceptData b d = some t) : ∃ ψ, Tracks job t ψ := by
  obtain ⟨c,index,slot,rest,here,head,waits,same⟩ := acceptData_iff.mp moved
  obtain ⟨mine,_,phase,one⟩ := tracks.accepts here waits
  subst mine
  have old := tracks.phase c
  rw [phase] at old
  have held : (s.stage c.server).socket = some c := by
    rw [here]
    rfl
  have moves : Moves job s t φ c.server c .absent := by
    subst same
    exact {
      stage := fun y away => Function.update_of_ne away _ _
      todo := fun y away => Function.update_of_ne away _ _
      before := by
        intro e also
        rw [held] at also
        exact (Option.some.inj also).symm
      after := Or.inl stage_here
      acks := fun e _ => rfl
      ranks := fun e _ => rfl
      cmdBacklog := fun b e _ => Iff.rfl
      dataBacklog := by
        intro b
        by_cases target : b = c.server
        · subst b
          exact Or.inr ⟨held,rfl⟩
        · exact Or.inl (Function.update_of_ne target _ _)
      dialed := List.Subset.refl _
      made := Nat.le_refl _
      rest := by
        intro action member
        rw [head]
        simp only [Function.update_self] at member
        exact List.mem_cons_of_mem _ member
      settled := {
        known := fun absent => absurd rfl absent
        client := fun stage also => by cases also
        server := fun stage also => by cases also
        waits := fun b => (old.waits b).trans (and_congr_right fun _ => iff_of_false (by simp) (by simp))
        acks := old.acks
        ranks := old.ranks
        dialed := fun e member => by cases member }
      side := Or.inr ⟨rfl,by rw [phase]; rfl⟩
      drained := by
        refine Or.inl ?_
        simp only [Function.update_self]
        rw [one,List.erase_cons_head]
      once := tracks.once }
  exact ⟨_,tracks.move moves⟩

theorem close_tracks (tracks : Tracks job s φ) (none : s.cmdBacklog b = []) (moved : s.close b = some t) : Tracks job t φ := by
  obtain ⟨idle,_,_,same⟩ := close_iff.mp moved
  have cmd : Function.update s.cmdBacklog b [] = s.cmdBacklog := by
    rw [Function.update_eq_self_iff,none]
  have data : Function.update s.dataBacklog b [] = s.dataBacklog := by
    rw [Function.update_eq_self_iff,tracks.idle_drained idle]
  rw [cmd,data] at same
  subst same
  refine ⟨?_,tracks.owned,tracks.drained,tracks.indexed,tracks.once⟩
  intro c
  obtain ⟨known,client,server,waits,acks,ranks,dialed⟩ := tracks.phase c
  exact ⟨known,client,server,waits,acks,ranks,dialed⟩

theorem start_tracks (job : Job) : Tracks job (start job) fun _ => .absent := by
  refine ⟨?_,?_,?_,?_,?_⟩
  · intro c
    exact {
      known := fun absent => absurd rfl absent
      client := fun stage held => by cases held
      server := fun stage held => by cases held
      waits := fun b => iff_of_false (by simp [start]) (by simp)
      acks := rfl
      ranks := rfl
      dialed := fun d member => by cases member }
  · intro a c held
    cases held
  · intro b
    exact Or.inl rfl
  · intro a pe index member
    have inside : a < job.n := by
      by_contra outside
      simp only [start,if_neg outside] at member
      cases member
    simp only [start,if_pos inside] at member
    obtain ⟨call,_,member⟩ := List.mem_flatMap.mp member
    obtain ⟨below,other,same⟩ := wireActions_connect member
    exact ⟨⟨inside,below,other⟩,same⟩
  · intro b
    exact List.nodup_nil

end Handshakes
end OpenShmem
