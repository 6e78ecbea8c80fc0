import OpenShmem.Comm.Tallies

namespace OpenShmem

variable {job : Job} {s t : Handshakes} {φ : Connection → Phase} {a b x y : Nat} {c d e : Connection}
  {sockets : Nat → Nat → Option Connection} {p q : Connection × Connection}

-- The socket that a PE has stored in its entry for another.
def SocketAt (job : Job) (sockets : Nat → Nat → Option Connection) (a b : Nat) (c : Connection) : Prop :=
  sockets a ((job.remotes a).idxOf b) = some c

theorem socketAt_here : SocketAt job (storeSocket sockets a ((job.remotes a).idxOf b) c) a b c := by
  simp [SocketAt,storeSocket]

theorem SocketAt.store (stored : SocketAt job sockets a b c) (here : Peers job a b) (there : Peers job x y)
    (same : a = x → b = y → c = d) : SocketAt job (storeSocket sockets x ((job.remotes x).idxOf y) d) a b c := by
  unfold SocketAt storeSocket at *
  by_cases first : a = x
  · subst x
    rw [Function.update_self]
    by_cases second : b = y
    · subst y
      rw [Function.update_self,same rfl rfl]
    · have apart : (job.remotes a).idxOf b ≠ (job.remotes a).idxOf y := by
        intro index
        have member : b ∈ job.remotes a := Job.mem_remotes.mpr ⟨here.2.1,here.2.2⟩
        exact second ((List.idxOf_inj member).mp index)
      rw [Function.update_of_ne apart]
      exact stored
  · rw [Function.update_of_ne first]
    exact stored

theorem dials_once (peers : Peers job a b) (one : b ∈ dials (wireProgram job a)) : a ∉ dials (wireProgram job b) := by
  intro two
  have forth := ((program_dials peers.1 peers.2.1).1.mp one).2
  have back := ((program_dials peers.2.1 peers.1).1.mp two).2
  exact calls_once ⟨forth,back⟩

-- A PE in a round of a client.
def Stage.Calls (c : Connection) (stage : Stage) : Prop := stage = .connected c ∨ stage = .greeted c ∨ stage = .named c

namespace Handshakes

theorem Counts.mem_dialed (counts : s.Counts job) (inside : p.1.client < job.n) (member : p ∈ s.dialed) :
    p.1.server ∈ dials (wireProgram job p.1.client) := by
  rw [← counts.dialed _ inside]
  exact List.mem_append_left _ (List.mem_map.mpr ⟨p,List.mem_filter.mpr ⟨member,by simp⟩,rfl⟩)

-- A PE that is dialed does not dial back.
theorem Counts.one_way (counts : s.Counts job) (peers : Peers job a b) (dialed : b ∈ dials (wireProgram job a))
    (member : p ∈ s.dialed) (client : p.1.client = b) : p.1.server ≠ a := by
  intro server
  have back := counts.mem_dialed (by rw [client]; exact peers.2.1) member
  rw [client,server] at back
  exact dials_once peers dialed back

theorem Counts.not_again (counts : s.Counts job) (head : s.todo a = .connect b index :: rest) (member : p ∈ s.dialed)
    (client : p.1.client = a) : p.1.server ≠ b := by
  intro server
  have once := counts.once (counts.inside head)
  rw [head] at once
  have apart := (List.nodup_append.mp once).2.2
  exact apart b (List.mem_map.mpr ⟨p,List.mem_filter.mpr ⟨member,by simp [client]⟩,server⟩) b List.mem_cons_self rfl

theorem Counts.dialed_unique (counts : s.Counts job) (inside : p.1.client < job.n) (one : p ∈ s.dialed) (two : q ∈ s.dialed)
    (client : q.1.client = p.1.client) (server : q.1.server = p.1.server) : p = q := by
  have once := (List.nodup_append.mp (counts.once inside)).1
  exact List.inj_on_of_nodup_map once (List.mem_filter.mpr ⟨one,by simp⟩) (List.mem_filter.mpr ⟨two,by simp [client]⟩) server.symm

-- A connection that is not finished is one of its client's program.
theorem Sound.mem_dials (tracks : s.Tracks job φ) (counts : s.Counts job) (present : φ c ≠ .absent) :
    c.server ∈ dials (wireProgram job c.client) := by
  have old := tracks.phase c
  have inside := (old.known present).1.1
  cases active : (φ c).client c with
  | some stage =>
    obtain ⟨_,index,rest,head⟩ := old.client _ active
    exact counts.mem_todo head
  | none =>
    have joined : ∃ d, d ∈ (φ c).data := by
      cases phase : φ c with
      | absent => exact False.elim (present phase)
      | joined d => exact ⟨d,List.mem_cons_self⟩
      | paired d => exact ⟨d,List.mem_cons_self⟩
      | _ =>
        rw [phase] at active
        cases active
    obtain ⟨d,member⟩ := joined
    exact counts.mem_dialed (p := (c,d)) inside (old.dialed d member)

-- Where the sockets of the rounds are, on both sides.
structure Filed (job : Job) (s : Handshakes) : Prop where
  clients : ∀ p ∈ s.dialed, p.2.client = p.1.client ∧ p.2.server = p.1.server ∧ Peers job p.1.client p.1.server ∧
    SocketAt job s.socketsCmd p.1.client p.1.server p.1 ∧ SocketAt job s.socketsData p.1.client p.1.server p.2
  calling : ∀ a c, (s.stage a).Calls c → Peers job a c.server ∧ SocketAt job s.socketsCmd a c.server c
  identified : ∀ b c index, s.stage b = .identified c index → Peers job b c.client ∧ SocketAt job s.socketsCmd b c.client c
  rounds : ∀ round ∈ s.rounds, ∃ p ∈ s.dialed, p.1.server = round.1 ∧ round.2 = (job.remotes round.1).idxOf p.1.client ∧
    SocketAt job s.socketsCmd p.1.server p.1.client p.1 ∧ SocketAt job s.socketsData p.1.server p.1.client p.2

-- A step that leaves the sockets alone and lets no PE call that did not call before.
theorem Filed.quiet {next : Stage} (filed : s.Filed job) (stages : t.stage = Function.update s.stage x next)
    (calls : ∀ c, next.Calls c → (s.stage x).Calls c) (idle : ∀ c index, next ≠ .identified c index)
    (cmd : t.socketsCmd = s.socketsCmd) (data : t.socketsData = s.socketsData) (dialed : t.dialed = s.dialed)
    (rounds : t.rounds = s.rounds) : t.Filed job := by
  refine ⟨?_,?_,?_,?_⟩
  · rw [cmd,data,dialed]
    exact filed.clients
  · rw [cmd,stages]
    intro a c here
    by_cases same : a = x
    · subst a
      rw [Function.update_self] at here
      exact filed.calling x c (calls c here)
    · rw [Function.update_of_ne same] at here
      exact filed.calling a c here
  · rw [cmd,stages]
    intro b c index here
    by_cases same : b = x
    · subst b
      rw [Function.update_self] at here
      exact False.elim (idle c index here)
    · rw [Function.update_of_ne same] at here
      exact filed.identified b c index here
  · rw [cmd,data,dialed,rounds]
    exact filed.rounds

theorem cmdConnect_filed (tracks : s.Tracks job φ) (counts : s.Counts job) (filed : s.Filed job)
    (moved : s.cmdConnect a = some t) : t.Filed job := by
  obtain ⟨pe,index,rest,idle,head,_,rfl⟩ := cmdConnect_iff.mp moved
  obtain ⟨peers,same⟩ := tracks.indexed a pe index (by rw [head]; exact List.mem_cons_self)
  subst same
  have mine := counts.mem_todo head
  refine ⟨?_,?_,?_,?_⟩
  · intro p member
    obtain ⟨client,server,known,cmd,data⟩ := filed.clients p member
    refine ⟨client,server,known,cmd.store known peers ?_,data⟩
    intro first second
    exact False.elim (counts.not_again head member first second)
  · intro b c here
    by_cases same : b = a
    · subst b
      simp only [Function.update_self,Stage.Calls,Stage.connected.injEq,reduceCtorEq,or_false] at here
      subst here
      exact ⟨peers,socketAt_here⟩
    · simp only [Function.update_of_ne same] at here
      obtain ⟨known,cmd⟩ := filed.calling b c here
      exact ⟨known,cmd.store known peers fun first => absurd first same⟩
  · intro b c index here
    have apart : b ≠ a := by
      intro same
      subst same
      simp only [Function.update_self,reduceCtorEq] at here
    simp only [Function.update_of_ne apart] at here
    obtain ⟨known,cmd⟩ := filed.identified b c index here
    exact ⟨known,cmd.store known peers fun first => absurd first apart⟩
  · intro round member
    obtain ⟨p,listed,server,index,cmd,data⟩ := filed.rounds round member
    obtain ⟨_,_,known,_⟩ := filed.clients p listed
    refine ⟨p,listed,server,index,cmd.store known.symm peers ?_,data⟩
    intro first second
    exact False.elim (counts.one_way peers mine listed second first)

theorem receiveRank_filed (tracks : s.Tracks job φ) (counts : s.Counts job) (filed : s.Filed job)
    (moved : s.receiveRank job b = some t) : t.Filed job := by
  obtain ⟨c,pe,entry,here,sent,found,rfl⟩ := receiveRank_iff.mp moved
  obtain ⟨mine,_,phase⟩ := tracks.rank_read here sent
  obtain ⟨peers,index⟩ := tracks.rank_index here sent found
  rw [index]
  subst mine
  have present : φ c ≠ .absent := by
    rcases phase with phase | ⟨d,phase⟩ <;> simp [phase]
  have dialed := Sound.mem_dials tracks counts present
  refine ⟨?_,?_,?_,?_⟩
  · intro p member
    obtain ⟨client,server,known,cmd,data⟩ := filed.clients p member
    refine ⟨client,server,known,cmd.store known peers.symm ?_,data⟩
    intro first second
    exact False.elim (counts.one_way peers dialed member first second)
  · intro a e calls
    have apart : a ≠ c.server := by
      intro same
      subst same
      simp [Stage.Calls] at calls
    simp only [Function.update_of_ne apart] at calls
    obtain ⟨known,cmd⟩ := filed.calling a e calls
    exact ⟨known,cmd.store known peers.symm fun first => absurd first apart⟩
  · intro b e index also
    by_cases same : b = c.server
    · subst b
      simp only [Function.update_self,Stage.identified.injEq] at also
      obtain ⟨rfl,_⟩ := also
      exact ⟨peers.symm,socketAt_here⟩
    · simp only [Function.update_of_ne same] at also
      obtain ⟨known,cmd⟩ := filed.identified b e index also
      exact ⟨known,cmd.store known peers.symm fun first => absurd first same⟩
  · intro round member
    obtain ⟨p,listed,server,index,cmd,data⟩ := filed.rounds round member
    obtain ⟨_,_,known,_⟩ := filed.clients p listed
    refine ⟨p,listed,server,index,cmd.store known.symm peers.symm ?_,data⟩
    intro first second
    -- The client dials the server once, so this is the round that is going on.
    have old := tracks.phase c
    rcases phase with phase | ⟨d,phase⟩
    · rw [phase] at old
      obtain ⟨_,_,_,head⟩ := old.client _ rfl
      exact False.elim (counts.not_again head listed second first)
    · rw [phase] at old
      have also := old.dialed d List.mem_cons_self
      rw [counts.dialed_unique known.1 listed also second.symm first.symm]

theorem dataConnect_filed (tracks : s.Tracks job φ) (counts : s.Counts job) (filed : s.Filed job)
    (moved : s.dataConnect a = some t) : t.Filed job := by
  obtain ⟨c,pe,index,rest,here,head,_,rfl⟩ := dataConnect_iff.mp moved
  obtain ⟨mine,_⟩ := tracks.named here
  have target := tracks.target here head
  subst target
  obtain ⟨peers,same⟩ := tracks.indexed a c.server index (by rw [head]; exact List.mem_cons_self)
  subst same
  have dialed := counts.mem_todo head
  refine ⟨?_,?_,?_,?_⟩
  · intro p member
    rcases List.mem_append.mp member with old | new
    · obtain ⟨client,server,known,cmd,data⟩ := filed.clients p old
      refine ⟨client,server,known,cmd,data.store known peers ?_⟩
      intro first second
      exact False.elim (counts.not_again head old first second)
    · rw [List.mem_singleton] at new
      subst new
      obtain ⟨_,cmd⟩ := filed.calling a c (by rw [here]; exact Or.inr (Or.inr rfl))
      subst mine
      exact ⟨rfl,rfl,peers,cmd,socketAt_here⟩
  · intro b e calls
    have apart : b ≠ a := by
      intro same
      subst same
      simp [Stage.Calls] at calls
    simp only [Function.update_of_ne apart] at calls
    exact filed.calling b e calls
  · intro b e index also
    have apart : b ≠ a := by
      intro same
      subst same
      simp at also
    simp only [Function.update_of_ne apart] at also
    exact filed.identified b e index also
  · intro round member
    obtain ⟨p,listed,server,index,cmd,data⟩ := filed.rounds round member
    obtain ⟨_,_,known,_⟩ := filed.clients p listed
    refine ⟨p,List.mem_append_left _ listed,server,index,cmd,data.store known.symm peers ?_⟩
    intro first second
    exact False.elim (counts.one_way peers dialed listed second first)

theorem acceptData_filed (tracks : s.Tracks job φ) (counts : s.Counts job) (filed : s.Filed job)
    (moved : s.acceptData b d = some t) : t.Filed job := by
  obtain ⟨c,index,slot,rest,here,head,waits,rfl⟩ := acceptData_iff.mp moved
  obtain ⟨mine,same,phase,_⟩ := tracks.accepts here waits
  obtain ⟨peers,cmd⟩ := filed.identified b c index here
  subst mine
  subst same
  have listed : (c,d) ∈ s.dialed := by
    have old := tracks.phase c
    rw [phase] at old
    exact old.dialed d List.mem_cons_self
  have dialed := Sound.mem_dials tracks counts (c := c) (by rw [phase]; simp)
  refine ⟨?_,?_,?_,?_⟩
  · intro p member
    obtain ⟨client,server,known,also,data⟩ := filed.clients p member
    refine ⟨client,server,known,also,data.store known peers ?_⟩
    intro first second
    exact False.elim (counts.one_way peers.symm dialed member first second)
  · intro a e calls
    have apart : a ≠ c.server := by
      intro same
      subst same
      simp [Stage.Calls] at calls
    simp only [Function.update_of_ne apart] at calls
    exact filed.calling a e calls
  · intro a e index also
    have apart : a ≠ c.server := by
      intro same
      subst same
      simp at also
    simp only [Function.update_of_ne apart] at also
    exact filed.identified a e index also
  · intro round member
    rcases List.mem_append.mp member with old | new
    · obtain ⟨p,first,server,index,also,data⟩ := filed.rounds round old
      obtain ⟨_,_,known,_⟩ := filed.clients p first
      refine ⟨p,first,server,index,also,data.store known.symm peers ?_⟩
      intro one two
      rw [counts.dialed_unique known.1 first listed two.symm one.symm]
    · rw [List.mem_singleton] at new
      subst new
      exact ⟨(c,d),listed,rfl,rfl,cmd,socketAt_here⟩

theorem start_filed (job : Job) : (start job).Filed job := by
  refine ⟨fun p member => ?_,fun a c calls => ?_,fun b c index here => ?_,fun round member => ?_⟩
  · cases member
  · simp [start,Stage.Calls] at calls
  · cases here
  · cases member

theorem step_filed (sound : s.Sound job) (filed : s.Filed job) (moved : s.step job event = some t) : t.Filed job := by
  obtain ⟨⟨φ,tracks⟩,counts⟩ := sound
  cases event with
  | cmdConnect a => exact cmdConnect_filed tracks counts filed moved
  | acceptCmd b c =>
    obtain ⟨_,_,idle,_,_,rfl⟩ := acceptCmd_iff.mp moved
    exact filed.quiet (x := b) rfl (by simp [Stage.Calls]) (by simp) rfl rfl rfl rfl
  | sendAck b =>
    obtain ⟨c,_,rfl⟩ := sendAck_iff.mp moved
    exact filed.quiet (x := b) rfl (by simp [Stage.Calls]) (by simp) rfl rfl rfl rfl
  | receiveAck a =>
    obtain ⟨c,here,_,rfl⟩ := receiveAck_iff.mp moved
    exact filed.quiet (x := a) rfl (by simp [Stage.Calls,here]) (by simp) rfl rfl rfl rfl
  | sendRank a =>
    obtain ⟨c,here,rfl⟩ := sendRank_iff.mp moved
    exact filed.quiet (x := a) rfl (by simp [Stage.Calls,here]) (by simp) rfl rfl rfl rfl
  | receiveRank b => exact receiveRank_filed tracks counts filed moved
  | dataConnect a => exact dataConnect_filed tracks counts filed moved
  | acceptData b d => exact acceptData_filed tracks counts filed moved
  | close b =>
    obtain ⟨idle,_,_,rfl⟩ := close_iff.mp moved
    have same : s.stage = Function.update s.stage b .idle := (Function.update_eq_self_iff.mpr idle.symm).symm
    exact filed.quiet same (by simp [Stage.Calls]) (by simp) rfl rfl rfl rfl

theorem run_filed (ran : (handshakes job).run (start job) events = some s) : s.Filed job := by
  let holds (s : Handshakes) : Prop := s.Sound job ∧ s.Filed job
  have kept : ∀ s event t, holds s → s.step job event = some t → holds t := by
    intro s event t both moved
    exact ⟨step_sound both.1 moved,step_filed both.1 both.2 moved⟩
  have both : holds s := Guarded.Machine.run_invariant kept ⟨start_sound job,start_filed job⟩ ran
  exact both.2

-- The sockets that PE b holds at index k go to the one PE p that has this index at b, and
-- p holds the other ends of both where it has b.
def PairedAt (job : Job) (s : Handshakes) (b k : Nat) : Prop :=
  ∃ p entry back c d, job.localityMap b p = some entry ∧ entry.type = .remote ∧ entry.index = k ∧
    (∀ q other, job.localityMap b q = some other → other.type = .remote → other.index = k → q = p) ∧
    s.socketsCmd b k = some c ∧ s.socketsData b k = some d ∧
    c.client = p ∧ c.server = b ∧ d.client = p ∧ d.server = b ∧
    job.localityMap p b = some back ∧ back.type = .remote ∧
    s.socketsCmd p back.index = some c ∧ s.socketsData p back.index = some d

end Handshakes

-- In every state of every run, every round that a server has finished stays paired.
theorem connections_paired (job : Job) (events : List HandshakeEvent)
    (ran : (handshakes job).run (Handshakes.start job) events = some s) :
    ∀ round ∈ s.rounds, s.PairedAt job round.1 round.2 := by
  intro round member
  have filed := Handshakes.run_filed ran
  obtain ⟨⟨c,d⟩,listed,server,same,cmd,data⟩ := filed.rounds round member
  obtain ⟨client,server',peers,cmd',data'⟩ := filed.clients _ listed
  obtain ⟨b,k⟩ := round
  simp only at server same cmd data client server' peers cmd' data'
  subst server
  subst same
  obtain ⟨entry,found,type,index⟩ := job.index_eq peers.1 peers.symm.2.2
  obtain ⟨back,found',type',index'⟩ := job.index_eq peers.2.1 peers.2.2
  have only : ∀ q other, job.localityMap c.server q = some other → other.type = .remote →
      other.index = (job.remotes c.server).idxOf c.client → q = c.client := by
    intro q other also remote place
    obtain ⟨again,here,near,index⟩ := job.map_eq c.server (Job.map_inside also)
    rw [also] at here
    cases here
    have apart : job.node c.server ≠ job.node q := by
      intro together
      rw [near.mpr together] at remote
      cases remote
    have listed : q ∈ job.remotes c.server := Job.mem_remotes.mpr ⟨Job.map_inside also,apart⟩
    exact (List.idxOf_inj listed).mp ((index remote).symm.trans place)
  refine ⟨c.client,entry,back,c,d,found,type,index,only,cmd,data,rfl,rfl,client,server',found',type',?_,?_⟩
  · rw [index']
    exact cmd'
  · rw [index']
    exact data'

-- Three PEs on nodes of their own, through all their rounds.
theorem connections_paired_three : ∃ s, (handshakes threeNodes).run (Handshakes.start threeNodes)
    [.cmdConnect 1,.acceptCmd 0 ⟨1,0,0⟩,.sendAck 0,.receiveAck 1,.sendRank 1,.dataConnect 1,.cmdConnect 1,.receiveRank 0,
      .acceptData 0 ⟨1,0,1⟩,.acceptCmd 2 ⟨1,2,2⟩,.sendAck 2,.receiveAck 1,.sendRank 1,.dataConnect 1,.receiveRank 2,
      .acceptData 2 ⟨1,2,3⟩,.cmdConnect 2,.acceptCmd 0 ⟨2,0,4⟩,.sendAck 0,.receiveAck 2,.sendRank 2,.receiveRank 0,
      .dataConnect 2,.acceptData 0 ⟨2,0,5⟩] = some s ∧
    s.rounds = [(0,0),(2,0),(0,1)] ∧ ∀ round ∈ s.rounds, s.PairedAt threeNodes round.1 round.2 := by
  let events : List HandshakeEvent := [.cmdConnect 1,.acceptCmd 0 ⟨1,0,0⟩,.sendAck 0,.receiveAck 1,.sendRank 1,
    .dataConnect 1,.cmdConnect 1,.receiveRank 0,.acceptData 0 ⟨1,0,1⟩,.acceptCmd 2 ⟨1,2,2⟩,.sendAck 2,.receiveAck 1,
    .sendRank 1,.dataConnect 1,.receiveRank 2,.acceptData 2 ⟨1,2,3⟩,.cmdConnect 2,.acceptCmd 0 ⟨2,0,4⟩,.sendAck 0,
    .receiveAck 2,.sendRank 2,.receiveRank 0,.dataConnect 2,.acceptData 0 ⟨2,0,5⟩]
  have final : ((handshakes threeNodes).run (Handshakes.start threeNodes) events).map Handshakes.rounds =
      some [(0,0),(2,0),(0,1)] := by decide +kernel
  obtain ⟨s,ran,rounds⟩ := Option.map_eq_some_iff.mp final
  exact ⟨s,ran,rounds,connections_paired threeNodes events ran⟩

end OpenShmem
