import OpenShmem.Comm.Phases

namespace OpenShmem

variable {job : Job} {s t : Handshakes} {φ : Connection → Phase} {a b : Nat} {c d : Connection} {todo later : Nat → List Action}

theorem callers_congr (same : ∀ a, b ∈ dials (later a) ↔ b ∈ dials (todo a)) : callers job b later = callers job b todo := by
  ext a
  rw [mem_callers,mem_callers,same]

theorem callers_left (here : a < job.n) (head : todo a = .connect b index :: rest) (once : (b :: dials rest).Nodup) :
    (callers job b (Function.update todo a rest)).card + 1 = (callers job b todo).card := by
  have member : a ∈ callers job b todo := by
    rw [mem_callers,head]
    exact ⟨here,List.mem_cons_self⟩
  have erased : callers job b (Function.update todo a rest) = (callers job b todo).erase a := by
    ext x
    rw [Finset.mem_erase,mem_callers,mem_callers]
    by_cases same : x = a
    · subst x
      rw [Function.update_self]
      exact iff_of_false (fun both => (List.nodup_cons.mp once).1 both.2) (fun both => both.1 rfl)
    · rw [Function.update_of_ne same]
      exact (and_iff_right same).symm
  rw [erased]
  exact Finset.card_erase_add_one member

-- What the rounds left, the rounds done and the calls to come add up to.
structure Handshakes.Counts (job : Job) (s : Handshakes) : Prop where
  dialed : ∀ a < job.n, (s.dialed.filter (·.1.client = a)).map (·.1.server) ++ dials (s.todo a) = dials (wireProgram job a)
  served : ∀ b < job.n, (roundSlots (s.todo b)).length + s.rounds.countP (·.1 = b) = (roundSlots (wireProgram job b)).length
  waiting : ∀ b < job.n, (roundSlots (s.todo b)).length = (callers job b s.todo).card + (s.dataBacklog b).length
  listens : ∀ b < job.n, s.todo b ≠ [] → s.listening b = true
  ports : ∀ a, s.listening a = true → a < job.n
  staged : ∀ a, Staged a (s.todo a)
  idle : ∀ a, ¬ a < job.n → s.todo a = []

namespace Handshakes

theorem Counts.inside (counts : s.Counts job) (busy : s.todo a = action :: rest) : a < job.n := by
  by_contra outside
  have idle := counts.idle a outside
  rw [busy] at idle
  cases idle

theorem Counts.once (counts : s.Counts job) (here : a < job.n) :
    ((s.dialed.filter (·.1.client = a)).map (·.1.server) ++ dials (s.todo a)).Nodup := by
  rw [counts.dialed a here]
  exact (program_dials here here).2

theorem Counts.planned (counts : s.Counts job) (here : a < job.n) (member : b ∈ dials (s.todo a)) :
    b ∈ dials (wireProgram job a) := by
  rw [← counts.dialed a here]
  exact List.mem_append_right _ member

theorem Counts.mem_todo (counts : s.Counts job) (head : s.todo a = .connect b index :: rest) :
    b ∈ dials (wireProgram job a) := by
  refine counts.planned (counts.inside head) ?_
  rw [head]
  exact List.mem_cons_self

theorem Counts.congr (counts : s.Counts job) (todo : t.todo = s.todo) (dialed : t.dialed = s.dialed)
    (rounds : t.rounds = s.rounds) (data : t.dataBacklog = s.dataBacklog) (listening : t.listening = s.listening) :
    t.Counts job := by
  obtain ⟨a,b,c,d,e,f,g⟩ := counts
  constructor
  · rwa [todo,dialed]
  · rwa [todo,rounds]
  · rwa [todo,data]
  · rwa [todo,listening]
  · rwa [listening]
  · rwa [todo]
  · rwa [todo]

theorem dataConnect_counts (tracks : s.Tracks job φ) (counts : s.Counts job) (moved : s.dataConnect a = some t) :
    t.Counts job := by
  obtain ⟨c,pe,index,rest,here,head,_,rfl⟩ := dataConnect_iff.mp moved
  have inside := counts.inside head
  obtain ⟨mine,_⟩ := tracks.named here
  have target := tracks.target here head
  subst target
  have once := counts.once inside
  rw [head,dials_connect] at once
  have once := (List.nodup_append.mp once).2.1
  refine ⟨?_,?_,?_,?_,counts.ports,?_,?_⟩
  · intro x below
    have old := counts.dialed x below
    simp only [List.filter_append,List.map_append]
    by_cases same : x = a
    · subst x
      rw [head,dials_connect] at old
      simpa [mine] using old
    · have other : ¬ c.client = x := fun also => same (also.symm.trans mine)
      simpa [same,other] using old
  · intro x below
    have old := counts.served x below
    by_cases same : x = a
    · subst x
      rw [head,slots_connect] at old
      simpa using old
    · simpa [same] using old
  · intro x below
    have old := counts.waiting x below
    have roundSlots : (roundSlots (Function.update s.todo a rest x)).length = (roundSlots (s.todo x)).length := by
      by_cases same : x = a
      · subst x
        rw [Function.update_self,head,slots_connect]
      · rw [Function.update_of_ne same]
    rw [roundSlots,old]
    by_cases target : x = c.server
    · subst x
      have less := callers_left inside head once
      simp only [Function.update_self,List.length_append,List.length_singleton]
      omega
    · simp only [Function.update_of_ne target]
      rw [callers_congr]
      intro y
      by_cases same : y = a
      · subst y
        rw [Function.update_self,head,dials_connect,List.mem_cons]
        exact or_iff_right target
      · rw [Function.update_of_ne same]
  · intro x below busy
    refine counts.listens x below ?_
    by_cases same : x = a
    · subst x
      rw [head]
      simp
    · simpa [same] using busy
  · intro x
    by_cases same : x = a
    · subst x
      have old := counts.staged a
      rw [head] at old
      simpa using old.tail
    · simpa [same] using counts.staged x
  · intro x outside
    have apart : x ≠ a := fun same => outside (same ▸ inside)
    simpa [apart] using counts.idle x outside

theorem acceptData_counts (tracks : s.Tracks job φ) (counts : s.Counts job) (moved : s.acceptData b d = some t) :
    t.Counts job := by
  obtain ⟨c,index,slot,rest,here,head,waits,rfl⟩ := acceptData_iff.mp moved
  have inside := counts.inside head
  obtain ⟨_,_,_,one⟩ := tracks.accepts here waits
  have dials : ∀ x, dials (Function.update s.todo b rest x) = dials (s.todo x) := by
    intro x
    by_cases same : x = b
    · subst x
      rw [Function.update_self,head,dials_accept]
    · rw [Function.update_of_ne same]
  refine ⟨?_,?_,?_,?_,counts.ports,?_,?_⟩
  · intro x below
    rw [dials]
    exact counts.dialed x below
  · intro x below
    have old := counts.served x below
    simp only [List.countP_append]
    by_cases same : x = b
    · subst x
      rw [head,slots_accept,List.length_cons] at old
      simp only [Function.update_self,List.countP_singleton,decide_true,if_true]
      omega
    · simpa [same,Ne.symm same] using old
  · intro x below
    have old := counts.waiting x below
    have callers : callers job x (Function.update s.todo b rest) = callers job x s.todo :=
      callers_congr fun y => by rw [dials]
    simp only [callers]
    by_cases same : x = b
    · subst x
      rw [head,slots_accept,List.length_cons,one,List.length_singleton] at old
      simp only [Function.update_self,one,List.erase_cons_head,List.length_nil]
      omega
    · simpa [same] using old
  · intro x below busy
    refine counts.listens x below ?_
    by_cases same : x = b
    · subst x
      rw [head]
      simp
    · simpa [same] using busy
  · intro x
    by_cases same : x = b
    · subst x
      have old := counts.staged b
      rw [head] at old
      simpa using old.tail
    · simpa [same] using counts.staged x
  · intro x outside
    have apart : x ≠ b := fun same => outside (same ▸ inside)
    simpa [apart] using counts.idle x outside

theorem close_counts (tracks : s.Tracks job φ) (counts : s.Counts job) (moved : s.close b = some t) : t.Counts job := by
  obtain ⟨idle,done,_,rfl⟩ := close_iff.mp moved
  have data : Function.update s.dataBacklog b [] = s.dataBacklog := by
    rw [Function.update_eq_self_iff,tracks.idle_drained idle]
  refine ⟨counts.dialed,counts.served,?_,?_,?_,counts.staged,counts.idle⟩
  · rw [data]
    exact counts.waiting
  · intro x below busy
    have apart : x ≠ b := by
      intro same
      subst same
      exact busy done
    simpa [apart] using counts.listens x below busy
  · intro x listens
    by_cases same : x = b
    · subst x
      simp at listens
    · exact counts.ports x (by simpa [same] using listens)

-- A PE with no round left has nobody at its port.
theorem Counts.unvisited (counts : s.Counts job) (tracks : s.Tracks job φ) (done : s.todo b = []) : s.cmdBacklog b = [] := by
  rw [List.eq_nil_iff_forall_not_mem]
  intro c member
  have old := tracks.phase c
  obtain ⟨mine,phase⟩ := (old.waits b).mp member
  rw [phase] at old
  obtain ⟨peers,_⟩ := old.known (by simp)
  obtain ⟨_,index,rest,head⟩ := old.client _ rfl
  subst mine
  have caller : c.client ∈ callers job c.server s.todo := by
    rw [mem_callers,head]
    exact ⟨peers.1,List.mem_cons_self⟩
  have some' := Finset.card_pos.mpr ⟨_,caller⟩
  have none := counts.waiting c.server peers.2.1
  rw [done] at none
  have zero : (roundSlots []).length = 0 := rfl
  omega

structure Sound (job : Job) (s : Handshakes) : Prop where
  tracks : ∃ φ, s.Tracks job φ
  counts : s.Counts job

theorem start_sound (job : Job) : (start job).Sound job := by
  refine ⟨⟨_,start_tracks job⟩,?_⟩
  have todo : ∀ a < job.n, (start job).todo a = wireProgram job a := fun a below => if_pos below
  have idle : ∀ a, ¬ a < job.n → (start job).todo a = [] := fun a outside => if_neg outside
  refine ⟨?_,?_,?_,?_,?_,?_,idle⟩
  · intro a below
    rw [todo a below]
    rfl
  · intro b below
    rw [todo b below]
    rfl
  · intro b below
    have same : callers job b (start job).todo = callers job b (wireProgram job) := by
      ext a
      rw [mem_callers,mem_callers]
      exact and_congr_right fun inside => by rw [todo a inside]
    rw [todo b below,same,program_count below]
    rfl
  · intro b below _
    exact decide_eq_true below
  · intro a listens
    exact of_decide_eq_true listens
  · intro a
    by_cases below : a < job.n
    · rw [todo a below]
      exact program_staged job a
    · rw [idle a below]
      exact List.Pairwise.nil

theorem step_sound (sound : s.Sound job) (moved : s.step job event = some t) : t.Sound job := by
  obtain ⟨⟨φ,tracks⟩,counts⟩ := sound
  cases event with
  | cmdConnect a =>
    have counted : t.Counts job := by
      obtain ⟨_,_,_,_,_,_,rfl⟩ := cmdConnect_iff.mp moved
      exact counts.congr rfl rfl rfl rfl rfl
    exact ⟨cmdConnect_tracks tracks moved,counted⟩
  | acceptCmd b c =>
    have counted : t.Counts job := by
      obtain ⟨_,_,_,_,_,rfl⟩ := acceptCmd_iff.mp moved
      exact counts.congr rfl rfl rfl rfl rfl
    exact ⟨acceptCmd_tracks tracks moved,counted⟩
  | sendAck b =>
    have counted : t.Counts job := by
      obtain ⟨_,_,rfl⟩ := sendAck_iff.mp moved
      exact counts.congr rfl rfl rfl rfl rfl
    exact ⟨sendAck_tracks tracks moved,counted⟩
  | receiveAck a =>
    have counted : t.Counts job := by
      obtain ⟨_,_,_,rfl⟩ := receiveAck_iff.mp moved
      exact counts.congr rfl rfl rfl rfl rfl
    exact ⟨receiveAck_tracks tracks moved,counted⟩
  | sendRank a =>
    have counted : t.Counts job := by
      obtain ⟨_,_,rfl⟩ := sendRank_iff.mp moved
      exact counts.congr rfl rfl rfl rfl rfl
    exact ⟨sendRank_tracks tracks moved,counted⟩
  | receiveRank b =>
    have counted : t.Counts job := by
      obtain ⟨_,_,_,_,_,_,rfl⟩ := receiveRank_iff.mp moved
      exact counts.congr rfl rfl rfl rfl rfl
    exact ⟨receiveRank_tracks tracks moved,counted⟩
  | dataConnect a => exact ⟨dataConnect_tracks tracks moved,dataConnect_counts tracks counts moved⟩
  | acceptData b d => exact ⟨acceptData_tracks tracks moved,acceptData_counts tracks counts moved⟩
  | close b =>
    have none := counts.unvisited tracks (close_iff.mp moved).2.1
    exact ⟨⟨φ,close_tracks tracks none moved⟩,close_counts tracks counts moved⟩

theorem run_sound (ran : (handshakes job).run (start job) events = some s) : s.Sound job :=
  Guarded.Machine.run_invariant (fun _ _ _ => step_sound) (start_sound job) ran

end Handshakes
end OpenShmem
