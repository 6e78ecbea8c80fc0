import OpenShmem.Comm.Tallies
import Mathlib.Algebra.BigOperators.Group.Finset.Basic

namespace OpenShmem

-- The steps of a round that are done.
def Stage.steps : Stage → Nat
  | .idle => 0
  | .connected _ | .accepted _ => 1
  | .greeted _ | .acknowledged _ => 2
  | .named _ | .identified _ _ => 3

namespace Handshakes

-- A PE that has run comm_remote_wireup.
def Finished (s : Handshakes) (a : Nat) : Prop := s.todo a = [] ∧ s.stage a = .idle ∧ s.listening a = false

-- The steps that a PE has before it: four a round, and the one that closes its servers.
def workOf (s : Handshakes) (a : Nat) : Nat :=
  4 * (s.todo a).length + (if s.listening a then 1 else 0) - (s.stage a).steps

def work (job : Job) (s : Handshakes) : Nat := ∑ a ∈ Finset.range job.n, s.workOf a

end Handshakes

variable {job : Job} {s t : Handshakes} {φ : Connection → Phase} {a b x : Nat} {c d : Connection}

namespace Handshakes

theorem work_step (inside : x < job.n) (same : ∀ y, y ≠ x → t.workOf y = s.workOf y) (less : t.workOf x + 1 = s.workOf x) :
    t.work job + 1 = s.work job := by
  have member := Finset.mem_range.mpr inside
  have others : ∑ y ∈ (Finset.range job.n).erase x, t.workOf y = ∑ y ∈ (Finset.range job.n).erase x, s.workOf y :=
    Finset.sum_congr rfl fun y away => same y (Finset.ne_of_mem_erase away)
  unfold work
  rw [← Finset.add_sum_erase _ _ member,← Finset.add_sum_erase _ _ member,others]
  omega

-- A PE in a round has the round before it.
theorem Tracks.busy (tracks : s.Tracks job φ) (held : (s.stage a).socket = some c) : ∃ action rest, s.todo a = action :: rest := by
  rcases tracks.owned a c held with ⟨mine,client⟩ | ⟨mine,server⟩
  · subst mine
    obtain ⟨_,index,rest,head⟩ := (tracks.phase c).client _ client
    exact ⟨_,rest,head⟩
  · subst mine
    obtain ⟨_,⟨slot,rest,head⟩,_⟩ := (tracks.phase c).server _ server
    exact ⟨_,rest,head⟩

-- A step within a round.
theorem work_stage {next : Stage} (counts : s.Counts job) (head : s.todo x = action :: rest) (todo : t.todo = s.todo)
    (listening : t.listening = s.listening) (stages : t.stage = Function.update s.stage x next)
    (steps : next.steps = (s.stage x).steps + 1) (within : next.steps ≤ 3) : t.work job + 1 = s.work job := by
  refine work_step (counts.inside head) ?_ ?_
  · intro y away
    unfold workOf
    rw [todo,listening,stages,Function.update_of_ne away]
  · unfold workOf
    rw [todo,listening,stages,Function.update_self,head,List.length_cons]
    omega

-- The last step of a round.
theorem work_round (counts : s.Counts job) (head : s.todo x = action :: rest) (todo : t.todo = Function.update s.todo x rest)
    (listening : t.listening = s.listening) (stages : t.stage = Function.update s.stage x .idle)
    (steps : (s.stage x).steps = 3) : t.work job + 1 = s.work job := by
  refine work_step (counts.inside head) ?_ ?_
  · intro y away
    unfold workOf
    rw [todo,listening,stages,Function.update_of_ne away,Function.update_of_ne away]
  · have none : Stage.idle.steps = 0 := rfl
    unfold workOf
    rw [todo,listening,stages,Function.update_self,Function.update_self,head,List.length_cons,steps,none]
    omega

theorem step_work (sound : s.Sound job) (moved : s.step job event = some t) : t.work job + 1 = s.work job := by
  obtain ⟨⟨φ,tracks⟩,counts⟩ := sound
  cases event with
  | cmdConnect a =>
    obtain ⟨_,_,_,idle,head,_,rfl⟩ := cmdConnect_iff.mp moved
    exact work_stage counts head rfl rfl rfl (by rw [idle]; rfl) (by simp [Stage.steps])
  | acceptCmd b c =>
    obtain ⟨_,_,idle,head,_,rfl⟩ := acceptCmd_iff.mp moved
    exact work_stage counts head rfl rfl rfl (by rw [idle]; rfl) (by simp [Stage.steps])
  | sendAck b =>
    obtain ⟨c,here,rfl⟩ := sendAck_iff.mp moved
    obtain ⟨_,_,head⟩ := tracks.busy (a := b) (c := c) (by rw [here]; rfl)
    exact work_stage counts head rfl rfl rfl (by rw [here]; rfl) (by simp [Stage.steps])
  | receiveAck a =>
    obtain ⟨c,here,_,rfl⟩ := receiveAck_iff.mp moved
    obtain ⟨_,_,head⟩ := tracks.busy (a := a) (c := c) (by rw [here]; rfl)
    exact work_stage counts head rfl rfl rfl (by rw [here]; rfl) (by simp [Stage.steps])
  | sendRank a =>
    obtain ⟨c,here,rfl⟩ := sendRank_iff.mp moved
    obtain ⟨_,_,head⟩ := tracks.busy (a := a) (c := c) (by rw [here]; rfl)
    exact work_stage counts head rfl rfl rfl (by rw [here]; rfl) (by simp [Stage.steps])
  | receiveRank b =>
    obtain ⟨c,_,_,here,_,_,rfl⟩ := receiveRank_iff.mp moved
    obtain ⟨_,_,head⟩ := tracks.busy (a := b) (c := c) (by rw [here]; rfl)
    exact work_stage counts head rfl rfl rfl (by rw [here]; rfl) (by simp [Stage.steps])
  | dataConnect a =>
    obtain ⟨_,_,_,_,here,head,_,rfl⟩ := dataConnect_iff.mp moved
    exact work_round counts head rfl rfl rfl (by rw [here]; rfl)
  | acceptData b d =>
    obtain ⟨_,_,_,_,here,head,_,rfl⟩ := acceptData_iff.mp moved
    exact work_round counts head rfl rfl rfl (by rw [here]; rfl)
  | close b =>
    obtain ⟨idle,done,listens,rfl⟩ := close_iff.mp moved
    refine work_step (counts.ports b listens) ?_ ?_
    · intro y away
      simp [workOf,away]
    · simp [workOf,idle,done,listens,Stage.steps]

def Stuck (job : Job) (s : Handshakes) : Prop := ∀ event, s.step job event = none

theorem Stuck.absurd (stuck : s.Stuck job) (event : HandshakeEvent) (moves : ∃ t, s.step job event = some t) : False := by
  obtain ⟨t,moved⟩ := moves
  rw [stuck event] at moved
  cases moved

theorem Counts.expected (counts : s.Counts job) (head : s.todo a = .connect b index :: rest) (inside : b < job.n) :
    0 < (roundSlots (s.todo b)).length := by
  have caller : a ∈ callers job b s.todo := by
    rw [mem_callers,head]
    exact ⟨counts.inside head,List.mem_cons_self⟩
  have some' := Finset.card_pos.mpr ⟨a,caller⟩
  have waiting := counts.waiting b inside
  omega

theorem Counts.awaited (counts : s.Counts job) (head : s.todo a = .connect b index :: rest) (inside : b < job.n) :
    s.listening b = true := by
  refine counts.listens b inside ?_
  intro done
  have expected := counts.expected head inside
  rw [done] at expected
  cases expected

theorem Stuck.not_named (stuck : s.Stuck job) (tracks : s.Tracks job φ) (counts : s.Counts job) : s.stage a ≠ .named c := by
  intro here
  obtain ⟨action,rest,head⟩ := tracks.busy (a := a) (c := c) (by rw [here]; rfl)
  obtain ⟨mine,phase⟩ := tracks.named here
  subst mine
  have active : (φ c).client c = some (.named c) := by
    rcases phase with phase | phase <;> rw [phase] <;> rfl
  obtain ⟨_,index,rest,head⟩ := (tracks.phase c).client _ active
  have present : φ c ≠ .absent := by
    rcases phase with phase | phase <;> simp [phase]
  have listens := counts.awaited head ((tracks.phase c).known present).1.2.1
  exact stuck.absurd (.dataConnect c.client) ⟨_,dataConnect_iff.mpr ⟨c,_,index,rest,here,head,listens,rfl⟩⟩

theorem Stuck.not_greeted (stuck : s.Stuck job) : s.stage a ≠ .greeted c := by
  intro here
  exact stuck.absurd (.sendRank a) ⟨_,sendRank_iff.mpr ⟨c,here,rfl⟩⟩

theorem Stuck.not_accepted (stuck : s.Stuck job) : s.stage b ≠ .accepted c := by
  intro here
  exact stuck.absurd (.sendAck b) ⟨_,sendAck_iff.mpr ⟨c,here,rfl⟩⟩

-- A server in its round waits for nobody who waits for it.
theorem Stuck.not_acknowledged (stuck : s.Stuck job) (tracks : s.Tracks job φ) (counts : s.Counts job) :
    s.stage b ≠ .acknowledged c := by
  intro here
  obtain ⟨mine,phase⟩ := tracks.acknowledged here
  have old := tracks.phase c
  rcases phase with phase | phase | phase | ⟨d,phase⟩
  · rw [phase] at old
    obtain ⟨waits,_⟩ := old.client _ rfl
    exact stuck.absurd (.receiveAck c.client) ⟨_,receiveAck_iff.mpr ⟨c,waits,old.acks,rfl⟩⟩
  · rw [phase] at old
    exact stuck.not_greeted (old.client _ rfl).1
  · rw [phase] at old
    exact stuck.not_named tracks counts (old.client _ rfl).1
  · rw [phase] at old
    obtain ⟨entry,found,_⟩ := job.map_eq b (old.known (by simp)).1.1
    exact stuck.absurd (.receiveRank b) ⟨_,receiveRank_iff.mpr ⟨c,_,entry,here,old.ranks,found,rfl⟩⟩

theorem Stuck.not_identified (stuck : s.Stuck job) (tracks : s.Tracks job φ) (counts : s.Counts job) :
    s.stage b ≠ .identified c index := by
  intro here
  obtain ⟨mine,_,phase⟩ := tracks.identified here
  subst mine
  have old := tracks.phase c
  rcases phase with phase | ⟨d,phase⟩
  · rw [phase] at old
    exact stuck.not_named tracks counts (old.client _ rfl).1
  · rw [phase] at old
    obtain ⟨_,⟨slot,rest,head⟩,data⟩ := old.server _ rfl
    have waits : d ∈ s.dataBacklog c.server := by
      rw [data]
      exact List.mem_cons_self
    exact stuck.absurd (.acceptData c.server d) ⟨_,acceptData_iff.mpr ⟨c,index,slot,rest,here,head,waits,rfl⟩⟩

-- So every PE is between rounds or waits to be accepted.
theorem Stuck.stages (stuck : s.Stuck job) (tracks : s.Tracks job φ) (counts : s.Counts job) (a : Nat) :
    s.stage a = .idle ∨ ∃ c, s.stage a = .connected c := by
  cases here : s.stage a with
  | idle => exact Or.inl rfl
  | connected c => exact Or.inr ⟨c,rfl⟩
  | greeted c => exact False.elim (stuck.not_greeted here)
  | named c => exact False.elim (stuck.not_named tracks counts here)
  | accepted c => exact False.elim (stuck.not_accepted here)
  | acknowledged c => exact False.elim (stuck.not_acknowledged tracks counts here)
  | identified c index => exact False.elim (stuck.not_identified tracks counts here)

theorem Stuck.pending (stuck : s.Stuck job) (tracks : s.Tracks job φ) (here : s.stage a = .connected c) :
    c.client = a ∧ φ c = .pending := by
  obtain ⟨mine,phase⟩ := tracks.connected here
  have old := tracks.phase c
  rcases phase with phase | phase | phase
  · exact ⟨mine,phase⟩
  · rw [phase] at old
    exact False.elim (stuck.not_accepted (old.server _ rfl).1)
  · rw [phase] at old
    obtain ⟨waits,_⟩ := old.client _ rfl
    exact False.elim (stuck.absurd (.receiveAck c.client) ⟨_,receiveAck_iff.mpr ⟨c,waits,old.acks,rfl⟩⟩)

theorem Stuck.calls (stuck : s.Stuck job) (tracks : s.Tracks job φ) (counts : s.Counts job)
    (head : s.todo a = .connect b index :: rest) : ∃ c, s.stage a = .connected c ∧ c.server = b := by
  rcases stuck.stages tracks counts a with idle | ⟨c,here⟩
  · obtain ⟨peers,_⟩ := tracks.indexed a b index (by rw [head]; exact List.mem_cons_self)
    have listens := counts.awaited head peers.2.1
    exact False.elim (stuck.absurd (.cmdConnect a) ⟨_,cmdConnect_iff.mpr ⟨b,index,rest,idle,head,listens,rfl⟩⟩)
  · obtain ⟨mine,phase⟩ := stuck.pending tracks here
    have old := tracks.phase c
    rw [phase] at old
    obtain ⟨_,_,_,also⟩ := old.client _ rfl
    rw [mine,head] at also
    cases also
    exact ⟨c,here,rfl⟩

-- A PE that waits to be accepted waits for one that calls a PE of the other parity: it is
-- odd and still at its first level.
theorem Stuck.callee (stuck : s.Stuck job) (tracks : s.Tracks job φ) (counts : s.Counts job)
    (here : s.stage a = .connected c) : c.server % 2 = 1 ∧
      ∃ d, s.stage c.server = .connected d ∧ d.server % 2 = 0 := by
  obtain ⟨mine,phase⟩ := stuck.pending tracks here
  have old := tracks.phase c
  rw [phase] at old
  obtain ⟨peers,_⟩ := old.known (by simp)
  obtain ⟨_,_,_,calls⟩ := old.client _ rfl
  have waits : c ∈ s.cmdBacklog c.server := (old.waits _).mpr ⟨rfl,rfl⟩
  have expected := counts.expected calls peers.2.1
  cases head : s.todo c.server with
  | nil =>
    rw [head] at expected
    cases expected
  | cons action rest =>
    cases action with
    | accept slot =>
      rcases stuck.stages tracks counts c.server with idle | ⟨d,waiting⟩
      · exact False.elim (stuck.absurd (.acceptCmd c.server c) ⟨_,acceptCmd_iff.mpr ⟨slot,rest,idle,head,waits,rfl⟩⟩)
      · obtain ⟨same,phase'⟩ := stuck.pending tracks waiting
        have other := tracks.phase d
        rw [phase'] at other
        obtain ⟨_,_,_,also⟩ := other.client _ rfl
        rw [same,head] at also
        cases also
    | connect e index =>
      obtain ⟨d,waiting,target⟩ := stuck.calls tracks counts head
      obtain ⟨known,_⟩ := tracks.indexed c.server e index (by rw [head]; exact List.mem_cons_self)
      have parity : e % 2 ≠ c.server % 2 := by
        intro same
        have staged := counts.staged c.server
        rw [head] at staged
        have none := staged.calling same
        rw [head,slots_connect,none] at expected
        cases expected
      have calls := ((program_dials known.1 known.2.1).1.mp (counts.mem_todo head)).2
      rcases calls with ⟨odd,even⟩ | ⟨same,_⟩
      · exact ⟨odd,d,waiting,by rw [target]; exact even⟩
      · exact False.elim (parity same)

theorem Stuck.idle (stuck : s.Stuck job) (tracks : s.Tracks job φ) (counts : s.Counts job) (a : Nat) : s.stage a = .idle := by
  rcases stuck.stages tracks counts a with idle | ⟨c,here⟩
  · exact idle
  · obtain ⟨_,d,waiting,even⟩ := stuck.callee tracks counts here
    obtain ⟨odd,_⟩ := stuck.callee tracks counts waiting
    omega

-- Nobody waits to be accepted, so who is left accepts, and so does a PE that calls it.
theorem Stuck.caller (stuck : s.Stuck job) (tracks : s.Tracks job φ) (counts : s.Counts job) (busy : s.todo b ≠ []) :
    ∃ a k, s.todo a ≠ [] ∧ LowestBit k (a / 2) ∧ b / 2 % 2^(k+1) = 0 := by
  have serves : ∀ x, s.todo x ≠ [] → ∃ slot rest, s.todo x = .accept slot :: rest := by
    intro x left
    cases head : s.todo x with
    | nil => exact False.elim (left head)
    | cons action rest =>
      cases action with
      | accept slot => exact ⟨slot,rest,rfl⟩
      | connect e index =>
        obtain ⟨c,waiting,_⟩ := stuck.calls tracks counts head
        rw [stuck.idle tracks counts x] at waiting
        cases waiting
  obtain ⟨slot,rest,head⟩ := serves b busy
  have inside := counts.inside head
  have waiting := counts.waiting b inside
  rw [head,slots_accept,List.length_cons,tracks.idle_drained (stuck.idle tracks counts b)] at waiting
  have some' : 0 < (callers job b s.todo).card := by
    rw [List.length_nil] at waiting
    omega
  obtain ⟨a,caller⟩ := Finset.card_pos.mp some'
  obtain ⟨below,dialed⟩ := mem_callers.mp caller
  have left : s.todo a ≠ [] := by
    intro done
    rw [done] at dialed
    cases dialed
  obtain ⟨slot',rest',head'⟩ := serves a left
  have planned := counts.planned below dialed
  have staged := counts.staged a
  rw [head'] at staged dialed
  have parity := staged.serving dialed
  rcases ((program_dials below inside).1.mp planned).2 with ⟨odd,even⟩ | ⟨_,k,bit,zero⟩
  · omega
  · exact ⟨a,k,left,bit,zero⟩

-- The callers go down with their lowest bits.
theorem Stuck.descent (stuck : s.Stuck job) (tracks : s.Tracks job φ) (counts : s.Counts job) (k : Nat) :
    ∀ b, s.todo b ≠ [] → ¬ LowestBit k (b / 2) := by
  induction k using Nat.strongRecOn with
  | ind k ih =>
    intro b busy bit
    obtain ⟨a,l,left,bit',zero⟩ := stuck.caller tracks counts busy
    have lower : l < k := by
      by_contra above
      exact bit.above (by omega) zero
    exact ih l lower a left bit'

theorem Stuck.finished (stuck : s.Stuck job) (sound : s.Sound job) (a : Nat) : s.Finished a := by
  obtain ⟨⟨φ,tracks⟩,counts⟩ := sound
  have idle := stuck.idle tracks counts a
  have done : s.todo a = [] := by
    by_contra busy
    obtain ⟨b,k,left,bit,_⟩ := stuck.caller tracks counts busy
    exact stuck.descent tracks counts k b left bit
  refine ⟨done,idle,?_⟩
  cases listens : s.listening a with
  | false => rfl
  | true => exact False.elim (stuck.absurd (.close a) ⟨_,close_iff.mpr ⟨idle,done,listens,rfl⟩⟩)

-- A wire-up of all PEs with every connection in its place.
structure WiredUp (job : Job) (s : Handshakes) : Prop where
  dialed : ∀ a < job.n, (s.dialed.filter (·.1.client = a)).map (·.1.server) = dials (wireProgram job a)
  accepted : ∀ b < job.n, s.rounds.countP (·.1 = b) = (callers job b (wireProgram job)).card
  left : ∀ b < job.n, s.cmdBacklog b = [] ∧ s.dataBacklog b = []

theorem Sound.wiredUp (sound : s.Sound job) (finished : ∀ a < job.n, s.Finished a) : s.WiredUp job := by
  obtain ⟨⟨φ,tracks⟩,counts⟩ := sound
  refine ⟨?_,?_,?_⟩
  · intro a below
    have dialed := counts.dialed a below
    rw [(finished a below).1] at dialed
    simpa [dials] using dialed
  · intro b below
    have served := counts.served b below
    rw [(finished b below).1,program_count below] at served
    simpa [roundSlots] using served
  · intro b below
    obtain ⟨done,idle,_⟩ := finished b below
    exact ⟨counts.unvisited tracks done,tracks.idle_drained idle⟩

theorem Sound.moves (sound : s.Sound job) (unfinished : ¬ ∀ a < job.n, s.Finished a) :
    ∃ event t, s.step job event = some t := by
  by_contra none
  have stuck : s.Stuck job := by
    intro event
    by_contra moves
    obtain ⟨t,moved⟩ := Option.ne_none_iff_exists'.mp moves
    exact none ⟨event,t,moved⟩
  exact unfinished fun a _ => stuck.finished sound a

end Handshakes

-- In every state that the wire-up of any PEs on any nodes can reach: as long as some PE has
-- not finished there is a step to take; each step leaves less to do, so that every run gets
-- to its end; and there each PE has accepted one connection from every PE that calls it.
theorem wireup_never_deadlocks (job : Job) (events : List HandshakeEvent)
    (ran : (handshakes job).run (Handshakes.start job) events = some s) :
    ((∃ a < job.n, ¬ s.Finished a) → ∃ event t, s.step job event = some t) ∧
    events.length + s.work job = (Handshakes.start job).work job ∧
    (∃ more u, (handshakes job).run s more = some u ∧ ∀ a < job.n, u.Finished a) ∧
    ((∀ a < job.n, s.Finished a) → s.WiredUp job) := by
  have sound := Handshakes.run_sound ran
  have kept : ∀ (s : Handshakes) event t, s.Sound job → s.step job event = some t → t.Sound job :=
    fun _ _ _ => Handshakes.step_sound
  have spends : ∀ (s : Handshakes) event t, s.Sound job → s.step job event = some t → t.work job + 1 = s.work job :=
    fun _ _ _ => Handshakes.step_work
  refine ⟨?_,?_,?_,sound.wiredUp⟩
  · intro ⟨a,below,unfinished⟩
    exact sound.moves fun all => unfinished (all a below)
  · exact Guarded.Machine.run_spends kept spends (Handshakes.start_sound job) ran
  · have less : ∀ (s : Handshakes) event t, s.Sound job → s.step job event = some t → t.work job < s.work job :=
      fun s event t sound moved => Nat.lt_of_succ_le (Nat.le_of_eq (spends s event t sound moved))
    exact Guarded.Machine.run_completes kept less (fun s => Handshakes.Sound.moves) sound

-- PE 2 calls PE 0 while PE 0 is still in a round of its first level.
theorem wireup_never_deadlocks_three : ∃ s, (handshakes threeNodes).run (Handshakes.start threeNodes)
    [.cmdConnect 1,.acceptCmd 0 ⟨1,0,0⟩,.sendAck 0,.receiveAck 1,.sendRank 1,.dataConnect 1,.cmdConnect 1,
      .acceptCmd 2 ⟨1,2,2⟩,.sendAck 2,.receiveAck 1,.sendRank 1,.receiveRank 2,.dataConnect 1,.acceptData 2 ⟨1,2,3⟩,
      .cmdConnect 2,.close 1,.receiveRank 0,.acceptData 0 ⟨1,0,1⟩,.acceptCmd 0 ⟨2,0,4⟩,.sendAck 0,.receiveAck 2,
      .sendRank 2,.dataConnect 2,.receiveRank 0,.acceptData 0 ⟨2,0,5⟩,.close 0,.close 2] = some s ∧
    (∀ a < 3, s.Finished a) ∧ s.WiredUp threeNodes := by
  let events : List HandshakeEvent := [.cmdConnect 1,.acceptCmd 0 ⟨1,0,0⟩,.sendAck 0,.receiveAck 1,.sendRank 1,
    .dataConnect 1,.cmdConnect 1,.acceptCmd 2 ⟨1,2,2⟩,.sendAck 2,.receiveAck 1,.sendRank 1,.receiveRank 2,.dataConnect 1,
    .acceptData 2 ⟨1,2,3⟩,.cmdConnect 2,.close 1,.receiveRank 0,.acceptData 0 ⟨1,0,1⟩,.acceptCmd 0 ⟨2,0,4⟩,.sendAck 0,
    .receiveAck 2,.sendRank 2,.dataConnect 2,.receiveRank 0,.acceptData 0 ⟨2,0,5⟩,.close 0,.close 2]
  have final : ((handshakes threeNodes).run (Handshakes.start threeNodes) events).map
      (fun s => (List.range 3).map fun a => (s.todo a,s.stage a,s.listening a)) =
        some [([],.idle,false),([],.idle,false),([],.idle,false)] := by decide +kernel
  obtain ⟨s,ran,observed⟩ := Option.map_eq_some_iff.mp final
  have finished : ∀ a < 3, s.Finished a := by
    intro a inside
    have listed : (s.todo a,s.stage a,s.listening a) ∈ (List.range 3).map fun a => (s.todo a,s.stage a,s.listening a) :=
      List.mem_map_of_mem (List.mem_range.mpr inside)
    rw [observed] at listed
    simpa [Handshakes.Finished] using listed
  exact ⟨s,ran,finished,(wireup_never_deadlocks threeNodes events ran).2.2.2 finished⟩

end OpenShmem
