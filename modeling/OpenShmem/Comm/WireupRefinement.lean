import OpenShmem.Comm.Pairing

namespace OpenShmem

variable {job : Job} {s t : Handshakes} {w : Wiring} {φ : Connection → Phase} {a b x : Nat} {c d : Connection}

-- The wiring that a state of the handshakes stands for. A connection counts for both
-- sides as soon as its client is done; the round of its server is then behind it.
structure Refines (job : Job) (s : Handshakes) (w : Wiring) : Prop where
  sound : s.Sound job
  todo : ∀ a, w.todo a = if s.dataBacklog a = [] then s.todo a else (s.todo a).tail
  pending : ∀ a b, (a,b) ∈ w.pending ↔ ∃ c, (s.stage a).Calls c ∧ c.server = b
  once : w.pending.Nodup
  linked : w.linked = s.dialed.map fun p => (p.1.client,p.1.server)

theorem Stage.Calls.socket {stage : Stage} (calls : stage.Calls c) : stage.socket = some c := by
  rcases calls with same | same | same <;> rw [same] <;> rfl

-- A PE in a client's round has no data connection at its own port.
theorem Handshakes.Tracks.calls_drained (tracks : s.Tracks job φ) (calls : (s.stage a).Calls c) : s.dataBacklog a = [] := by
  rcases tracks.drained a with empty | ⟨e,held,mine⟩
  · exact empty
  · rw [calls.socket] at held
    cases held
    have owner : c.client = a := by
      rcases calls with here | here | here
      · exact (tracks.connected here).1
      · exact (tracks.greeted here).1
      · exact (tracks.named here).1
    have present : φ c ≠ .absent := by
      rcases tracks.owned a c calls.socket with ⟨_,active⟩ | ⟨_,active⟩ <;> intro absent <;> rw [absent] at active <;> cases active
    have peers := ((tracks.phase c).known present).1
    exact False.elim (peers.ne (owner.trans mine.symm))

-- A step that no wiring has: within a round, or the last one of a server's.
theorem Refines.stay {next : Stage} (refines : Refines job s w) (moved : s.step job event = some t)
    (stages : t.stage = Function.update s.stage x next) (calls : ∀ c, next.Calls c ↔ (s.stage x).Calls c)
    (todo : ∀ a, (if t.dataBacklog a = [] then t.todo a else (t.todo a).tail) =
      if s.dataBacklog a = [] then s.todo a else (s.todo a).tail)
    (dialed : t.dialed = s.dialed) : Refines job t w := by
  refine ⟨Handshakes.step_sound refines.sound moved,?_,?_,refines.once,?_⟩
  · intro a
    rw [todo]
    exact refines.todo a
  · intro a b
    rw [refines.pending a b,stages]
    by_cases same : a = x
    · subst a
      rw [Function.update_self]
      simp only [calls]
    · rw [Function.update_of_ne same]
  · rw [dialed]
    exact refines.linked

theorem Refines.arrives (refines : Refines job s w) (moved : s.cmdConnect a = some t) :
    ∃ v, w.step job (.arrive a) = some v ∧ Refines job t v := by
  have stepped : s.step job (.cmdConnect a) = some t := moved
  have sound := Handshakes.step_sound refines.sound stepped
  obtain ⟨⟨φ,tracks⟩,counts⟩ := refines.sound
  obtain ⟨pe,index,rest,idle,head,_,rfl⟩ := Handshakes.cmdConnect_iff.mp moved
  have todo := refines.todo a
  rw [tracks.idle_drained idle,if_pos rfl,head] at todo
  have new : (a,pe) ∉ w.pending := by
    rw [refines.pending a pe,idle]
    intro some'
    obtain ⟨c,calls,_⟩ := some'
    cases calls.socket
  refine ⟨{w with pending := w.pending ++ [(a,pe)]},?_,sound,refines.todo,?_,?_,refines.linked⟩
  · simp only [Wiring.step,todo,if_neg new]
  · intro x b
    rw [List.mem_append,List.mem_singleton,refines.pending x b]
    by_cases same : x = a
    · subst x
      simp [idle,Stage.Calls,eq_comm]
    · simp [same]
  · refine List.nodup_append.mpr ⟨refines.once,List.nodup_singleton _,?_⟩
    intro p member q last same
    subst same
    exact new (List.mem_singleton.mp last ▸ member)

theorem Refines.accepts (refines : Refines job s w) (moved : s.dataConnect a = some t) :
    ∃ b v, w.step job (.accept b a) = some v ∧ Refines job t v := by
  have stepped : s.step job (.dataConnect a) = some t := moved
  have sound := Handshakes.step_sound refines.sound stepped
  obtain ⟨⟨φ,tracks⟩,counts⟩ := refines.sound
  obtain ⟨c,pe,index,rest,here,head,_,rfl⟩ := Handshakes.dataConnect_iff.mp moved
  obtain ⟨mine,phase⟩ := tracks.named here
  have target := tracks.target here head
  subst target
  obtain ⟨peers,_⟩ := tracks.indexed a c.server index (by rw [head]; exact List.mem_cons_self)
  have calls : (s.stage a).Calls c := Or.inr (Or.inr here)
  obtain ⟨stage,serves⟩ : ∃ stage, (φ c).server job c = some stage := Phase.serves phase
  obtain ⟨_,⟨slot,others,serving⟩,data⟩ := (tracks.phase c).server _ serves
  have nothing : (φ c).data = [] := by
    rcases phase with phase | phase <;> rw [phase] <;> rfl
  rw [nothing] at data
  have atClient := refines.todo a
  rw [tracks.calls_drained calls,if_pos rfl,head] at atClient
  have atServer := refines.todo c.server
  rw [data,if_pos rfl,serving] at atServer
  have waits : (a,c.server) ∈ w.pending := (refines.pending a c.server).mpr ⟨c,calls,rfl⟩
  obtain ⟨entry,found,_⟩ := job.map_eq c.server peers.1
  let v : Wiring := ⟨Function.update (Function.update w.todo c.server others) a rest,w.pending.erase (a,c.server),
    w.linked ++ [(a,c.server)],setSocket (setSocket w.sockets a index c.server) c.server entry.index a⟩
  refine ⟨c.server,v,?_,sound,?_,?_,refines.once.erase _,?_⟩
  · simp only [Wiring.step,atServer,atClient,waits,and_self,if_true,found]
    rfl
  · intro x
    by_cases client : x = a
    · subst x
      simp [v,peers.ne,tracks.calls_drained calls]
    · by_cases server : x = c.server
      · subst x
        simp [v,client,serving]
      · simpa [v,client,server] using refines.todo x
  · intro x b
    rw [refines.once.mem_erase_iff,refines.pending x b]
    by_cases client : x = a
    · subst x
      simp only [Function.update_self]
      refine iff_of_false ?_ ?_
      · intro both
        obtain ⟨apart,e,also,same⟩ := both
        have equal := also.socket
        rw [calls.socket] at equal
        cases equal
        exact apart (by rw [same])
      · intro some'
        obtain ⟨e,also,_⟩ := some'
        cases also.socket
    · simp [client]
  · simp [v,refines.linked,mine]

theorem Refines.step (refines : Refines job s w) (moved : s.step job event = some t) :
    ∃ answer v, (wirings job).run w answer = some v ∧ Refines job t v := by
  have stay : ∀ {x next}, t.stage = Function.update s.stage x next → (∀ c, next.Calls c ↔ (s.stage x).Calls c) →
      t.dataBacklog = s.dataBacklog → t.todo = s.todo → t.dialed = s.dialed →
      ∃ answer v, (wirings job).run w answer = some v ∧ Refines job t v := by
    intro x next stages calls data todo dialed
    exact ⟨[],w,rfl,refines.stay moved stages calls (fun a => by rw [data,todo]) dialed⟩
  cases event with
  | cmdConnect a =>
    obtain ⟨v,arrived,next⟩ := refines.arrives moved
    exact ⟨[.arrive a],v,Guarded.Machine.run_one.trans arrived,next⟩
  | acceptCmd b c =>
    obtain ⟨_,_,idle,_,_,rfl⟩ := Handshakes.acceptCmd_iff.mp moved
    exact stay (x := b) rfl (by simp [Stage.Calls,idle]) rfl rfl rfl
  | sendAck b =>
    obtain ⟨c,here,rfl⟩ := Handshakes.sendAck_iff.mp moved
    exact stay (x := b) rfl (by simp [Stage.Calls,here]) rfl rfl rfl
  | receiveAck a =>
    obtain ⟨c,here,_,rfl⟩ := Handshakes.receiveAck_iff.mp moved
    exact stay (x := a) rfl (by simp [Stage.Calls,here]) rfl rfl rfl
  | sendRank a =>
    obtain ⟨c,here,rfl⟩ := Handshakes.sendRank_iff.mp moved
    exact stay (x := a) rfl (by simp [Stage.Calls,here]) rfl rfl rfl
  | receiveRank b =>
    obtain ⟨c,_,_,here,_,_,rfl⟩ := Handshakes.receiveRank_iff.mp moved
    exact stay (x := b) rfl (by simp [Stage.Calls,here]) rfl rfl rfl
  | dataConnect a =>
    obtain ⟨b,v,accepted,next⟩ := refines.accepts moved
    exact ⟨[.accept b a],v,Guarded.Machine.run_one.trans accepted,next⟩
  | acceptData b d =>
    obtain ⟨⟨φ,tracks⟩,_⟩ := refines.sound
    obtain ⟨c,index,slot,rest,here,head,waits,rfl⟩ := Handshakes.acceptData_iff.mp moved
    obtain ⟨_,_,_,one⟩ := tracks.accepts here waits
    refine ⟨[],w,rfl,refines.stay (x := b) moved rfl (by simp [Stage.Calls,here]) ?_ rfl⟩
    intro x
    by_cases same : x = b
    · subst x
      simp [one,head]
    · simp [same]
  | close b =>
    obtain ⟨⟨φ,tracks⟩,_⟩ := refines.sound
    obtain ⟨idle,_,_,rfl⟩ := Handshakes.close_iff.mp moved
    have same : s.stage = Function.update s.stage b .idle := (Function.update_eq_self_iff.mpr idle.symm).symm
    have data : Function.update s.dataBacklog b [] = s.dataBacklog := by
      rw [Function.update_eq_self_iff,tracks.idle_drained idle]
    exact stay same (by simp [Stage.Calls,idle]) data rfl rfl

theorem start_refines (job : Job) : Refines job (Handshakes.start job) (Wiring.start job) := by
  refine ⟨Handshakes.start_sound job,fun a => rfl,?_,List.nodup_nil,rfl⟩
  intro a b
  refine iff_of_false (by simp [Wiring.start]) ?_
  intro some'
  obtain ⟨c,calls,_⟩ := some'
  cases calls.socket

-- Every run of the handshakes is one of whole connections, and when the PEs have finished
-- it is a finished one with the same connections.
theorem handshakes_refine (ran : (handshakes job).run (Handshakes.start job) events = some s) :
    ∃ answer w, (wirings job).run (Wiring.start job) answer = some w ∧
      w.linked = s.dialed.map (fun p => (p.1.client,p.1.server)) ∧ ((∀ a < job.n, s.todo a = []) → w.Done job) := by
  obtain ⟨answer,w,moved,refines⟩ :=
    Guarded.Machine.run_simulates (fun _ _ _ _ => Refines.step) (start_refines job) ran
  refine ⟨answer,w,moved,refines.linked,?_⟩
  intro finished a below
  rw [refines.todo a,finished a below]
  exact ite_self _

end OpenShmem
