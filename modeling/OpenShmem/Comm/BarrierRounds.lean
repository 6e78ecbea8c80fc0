import OpenShmem.Comm.Barrier

namespace OpenShmem

variable {n me calls q i : Nat} {pSync : Nat → BitVec 32} {pc next : Pc} {effect : Effect} {s t : Barrier}

theorem mem_inFlight {flight : Flight} (member : flight ∈ s.flights) : 0 < s.inFlight flight.pe flight.slot :=
  List.countP_pos_iff.mpr ⟨flight,member,by simp⟩

-- A flight lies on one of the channels in use, and it is the latest signal put there.
def Current (n : Nat) (s : Barrier) (flight : Flight) : Prop :=
  (flight.pe = 0 ∧ 0 < flight.slot ∧ flight.slot < n ∧ flight.round = s.arrived flight.slot) ∨
  (flight.slot = flight.pe ∧ 0 < flight.pe ∧ flight.pe < n ∧ flight.round = s.released flight.pe)

-- A flight is put onto a slot that holds 0, and brings the next signal that its PE waits for.
theorem Current.due {flight : Flight} (balanced : Balanced n s) (current : Current n s flight)
    (member : flight ∈ s.flights) : s.pSync flight.pe flight.slot = 0 ∧
      s.inFlight flight.pe flight.slot = 1 ∧
      (flight.pe = 0 → flight.round = s.collected flight.slot + 1) ∧
      (flight.pe ≠ 0 → flight.round = s.awaited flight.pe + 1) := by
  have some := mem_inFlight member
  have empty : ∀ value : BitVec 32, held value = 0 → value = 0 := by
    intro value zero
    unfold held at zero
    split at zero
    · assumption
    · cases zero
  rcases current with ⟨pe,above,below,round⟩ | ⟨slot,above,below,round⟩
  · have arrivals := balanced.arrivals flight.slot above below
    obtain ⟨one,_⟩ := balanced.capacity above below
    rw [pe] at some ⊢
    exact ⟨empty _ (by omega),by omega,fun _ => by omega,fun other => False.elim (other rfl)⟩
  · have releases := balanced.releases flight.pe above below
    obtain ⟨_,one⟩ := balanced.capacity above below
    rw [slot] at some ⊢
    exact ⟨empty _ (by omega),by omega,fun same => by omega,fun _ => by omega⟩

theorem deliver_inFlight {flight : Flight} (member : flight ∈ s.flights) (pe slot : Nat) :
    (s.deliver flight).inFlight pe slot + (if flight.pe = pe ∧ flight.slot = slot then 1 else 0) =
      s.inFlight pe slot := by
  have count := (List.perm_cons_erase member).countP_eq fun other : Flight => other.pe = pe ∧ other.slot = slot
  unfold Barrier.inFlight Barrier.deliver
  rw [count,List.countP_cons]
  simp

theorem deliver_pSync (flight : Flight) (pe slot : Nat) : (s.deliver flight).pSync pe slot =
    if flight.pe = pe ∧ flight.slot = slot then 1 else s.pSync pe slot := by
  unfold Barrier.deliver setSlot
  by_cases first : flight.pe = pe
  · subst pe
    by_cases second : flight.slot = slot
    · simp [second]
    · simp [second,Ne.symm second]
  · simp [first,Ne.symm first]

theorem deliver_mark (flight : Flight) (pe slot : Nat) : (s.deliver flight).mark pe slot =
    if flight.pe = pe ∧ flight.slot = slot then flight.round else s.mark pe slot := by
  unfold Barrier.deliver setSlot
  by_cases first : flight.pe = pe
  · subst pe
    by_cases second : flight.slot = slot
    · simp [second]
    · simp [second,Ne.symm second]
  · simp [first,Ne.symm first]

-- Delivering moves one signal of a channel from its way into the slot.
theorem deliver_channel {flight : Flight} (balanced : Balanced n s) (current : Current n s flight)
    (member : flight ∈ s.flights) (pe slot : Nat) :
    held ((s.deliver flight).pSync pe slot) + (s.deliver flight).inFlight pe slot =
      held (s.pSync pe slot) + s.inFlight pe slot := by
  have count := deliver_inFlight member pe slot
  obtain ⟨empty,_⟩ := current.due balanced member
  rw [deliver_pSync]
  by_cases here : flight.pe = pe ∧ flight.slot = slot
  · obtain ⟨rfl,rfl⟩ := here
    simp only [and_self,if_true] at count ⊢
    rw [empty]
    simp only [held,if_true]
    rw [if_neg (by decide)]
    omega
  · rw [if_neg here] at count ⊢
    omega

theorem deliver_balanced {flight : Flight} (balanced : Balanced n s) (current : Current n s flight)
    (member : flight ∈ s.flights) : Balanced n (s.deliver flight) := by
  have kept : ∀ pe slot, s.pSync pe slot ≠ 0 → (s.deliver flight).pSync pe slot ≠ 0 := by
    intro pe slot full
    rw [deliver_pSync]
    split
    · decide
    · exact full
  refine ⟨balanced.root,balanced.peers,balanced.busy,?_,?_,?_,?_,balanced.returned⟩
  · intro q above below
    have before := balanced.arrivals q above below
    have moved := deliver_channel balanced current member 0 q
    unfold Barrier.arrived Barrier.collected at before ⊢
    change (s.pc q).arrived (s.calls q) = (s.pc 0).collected (s.calls 0) q + _ + _
    omega
  · intro q above below
    have before := balanced.releases q above below
    have moved := deliver_channel balanced current member q q
    unfold Barrier.released Barrier.awaited at before ⊢
    change (s.pc 0).released (s.calls 0) q = (s.pc q).awaited (s.calls q) + _ + _
    omega
  · intro i same
    exact kept 0 i (balanced.clear i same)
  · intro q above below same
    exact kept q q (balanced.reset q above below same)

structure Tagged (n : Nat) (s : Barrier) : Prop where
  flights : ∀ flight ∈ s.flights, Current n s flight
  arrivals : ∀ q, 0 < q → q < n → s.pSync 0 q ≠ 0 → s.mark 0 q = s.collected q + 1
  releases : ∀ q, 0 < q → q < n → s.pSync q q ≠ 0 → s.mark q q = s.awaited q + 1

theorem root_tagged (balanced : Balanced n s) (tagged : Tagged n s) (positive : 0 < n)
    (moved : commBarrierAll n 0 (s.pSync 0) (s.pc 0) = some (next,effect)) :
    Tagged n (s.perform 0 next effect) := by
  have moves := root_moves balanced.root (balanced.busy 0 positive) moved
  have after := root_balanced balanced positive moved
  have collected : ∀ q, 0 < q → q < n → (s.perform 0 next effect).collected q =
      s.collected q + if effect = .zero q then 1 else 0 := by
    intro q above below
    have same := moves.collected q above below
    simpa [Barrier.collected,Barrier.perform] using same
  have released : ∀ q, 0 < q → q < n → (s.perform 0 next effect).released q =
      s.released q + if effect = .signal q q then 1 else 0 := by
    intro q above below
    have same := moves.released q above below
    simpa [Barrier.released,Barrier.perform] using same
  have others : ∀ q, 0 < q → (s.perform 0 next effect).arrived q = s.arrived q ∧
      (s.perform 0 next effect).awaited q = s.awaited q := by
    intro q above
    simp [Barrier.arrived,Barrier.awaited,Barrier.perform,Nat.ne_of_gt above]
  refine ⟨?_,?_,?_⟩
  · intro flight member
    rcases List.mem_append.mp member with old | new
    · rcases tagged.flights flight old with ⟨pe,above,below,round⟩ | ⟨slot,above,below,round⟩
      · exact Or.inl ⟨pe,above,below,by rw [(others _ above).1]; exact round⟩
      · refine Or.inr ⟨slot,above,below,?_⟩
        have notAgain : effect ≠ .signal flight.pe flight.pe := by
          intro signal
          have twice := perform_inFlight (s := s) 0 next effect flight.pe flight.pe
          have there := mem_inFlight old
          obtain ⟨_,one⟩ := after.capacity above below
          rw [slot] at there
          rw [if_pos signal] at twice
          omega
        rw [released _ above below,if_neg notAgain]
        exact round
    · cases effect with
      | signal pe slot =>
        cases List.mem_singleton.mp new
        obtain ⟨same,pc⟩ := moves.signal pe slot rfl
        subst slot
        have place := balanced.root
        rw [pc] at place
        have busy := balanced.busy 0 positive (by rw [pc]; simp)
        refine Or.inr ⟨rfl,place.1,place.2,?_⟩
        rw [released _ place.1 place.2]
        simp only [if_true,Barrier.released,pc,Pc.released,Nat.le_refl]
        omega
      | nothing => cases new
      | call => cases new
      | zero slot => cases new
      | ret => cases new
  · intro q above below full
    rw [perform_here] at full
    have notZero : effect ≠ .zero q := by
      intro zero
      rw [if_pos zero] at full
      exact full rfl
    rw [if_neg notZero] at full
    rw [collected q above below,if_neg notZero]
    exact tagged.arrivals q above below full
  · intro q above below full
    rw [perform_other _ _ _ _ _ (Nat.ne_of_gt above)] at full
    rw [(others q above).2]
    exact tagged.releases q above below full

theorem peer_tagged (balanced : Balanced n s) (tagged : Tagged n s) (other : 0 < me) (inside : me < n)
    (moved : commBarrierAll n me (s.pSync me) (s.pc me) = some (next,effect)) :
    Tagged n (s.perform me next effect) := by
  have moves := peer_moves other (balanced.peers me other inside) (balanced.busy me inside) moved
  have after := peer_balanced balanced other inside moved
  have root : ∀ q, (s.perform me next effect).collected q = s.collected q ∧
      (s.perform me next effect).released q = s.released q := by
    intro q
    simp [Barrier.collected,Barrier.released,Barrier.perform,Nat.ne_of_lt other]
  have here : (s.perform me next effect).arrived me = s.arrived me + (if effect = .signal 0 me then 1 else 0) ∧
      (s.perform me next effect).awaited me = s.awaited me + if effect = .zero me then 1 else 0 := by
    have arrived := moves.arrived
    have awaited := moves.awaited
    exact ⟨by simpa [Barrier.arrived,Barrier.perform] using arrived,
      by simpa [Barrier.awaited,Barrier.perform] using awaited⟩
  have others : ∀ q, q ≠ me → (s.perform me next effect).arrived q = s.arrived q ∧
      (s.perform me next effect).awaited q = s.awaited q := by
    intro q apart
    simp [Barrier.arrived,Barrier.awaited,Barrier.perform,apart]
  refine ⟨?_,?_,?_⟩
  · intro flight member
    rcases List.mem_append.mp member with old | new
    · rcases tagged.flights flight old with ⟨pe,above,below,round⟩ | ⟨slot,above,below,round⟩
      · refine Or.inl ⟨pe,above,below,?_⟩
        by_cases same : flight.slot = me
        · have notAgain : effect ≠ .signal 0 me := by
            intro signal
            have twice := perform_inFlight (s := s) me next effect 0 me
            have there := mem_inFlight old
            obtain ⟨one,_⟩ := after.capacity other inside
            rw [pe,same] at there
            rw [if_pos signal] at twice
            omega
          rw [same] at round ⊢
          rw [here.1,if_neg notAgain]
          exact round
        · rw [(others _ same).1]
          exact round
      · exact Or.inr ⟨slot,above,below,by rw [(root _).2]; exact round⟩
    · cases effect with
      | signal pe slot =>
        cases List.mem_singleton.mp new
        obtain ⟨rfl,rfl,pc⟩ := moves.signal pe slot rfl
        have busy := balanced.busy slot inside (by rw [pc]; simp)
        refine Or.inl ⟨rfl,other,inside,?_⟩
        rw [here.1]
        simp only [if_true,Barrier.arrived,pc,Pc.arrived]
        omega
      | nothing => cases new
      | call => cases new
      | zero slot => cases new
      | ret => cases new
  · intro q above below full
    rw [perform_other _ _ _ _ _ (Nat.ne_of_lt other)] at full
    rw [(root q).1]
    exact tagged.arrivals q above below full
  · intro q above below full
    by_cases same : q = me
    · subst q
      rw [perform_here] at full
      have notZero : effect ≠ .zero me := by
        intro zero
        rw [if_pos zero] at full
        exact full rfl
      rw [if_neg notZero] at full
      rw [here.2,if_neg notZero]
      exact tagged.releases me above below full
    · rw [perform_other _ _ _ _ _ same] at full
      rw [(others q same).2]
      exact tagged.releases q above below full

theorem deliver_tagged {flight : Flight} (balanced : Balanced n s) (tagged : Tagged n s)
    (member : flight ∈ s.flights) : Tagged n (s.deliver flight) := by
  obtain ⟨_,_,arrival,release⟩ := (tagged.flights flight member).due balanced member
  refine ⟨?_,?_,?_⟩
  · intro other there
    exact tagged.flights other (List.mem_of_mem_erase there)
  · intro q above below full
    rw [deliver_mark]
    rw [deliver_pSync] at full
    split
    · rename_i here
      obtain ⟨pe,slot⟩ := here
      rw [arrival pe,slot]
      rfl
    · rename_i elsewhere
      rw [if_neg elsewhere] at full
      exact tagged.arrivals q above below full
  · intro q above below full
    rw [deliver_mark]
    rw [deliver_pSync] at full
    split
    · rename_i here
      obtain ⟨pe,slot⟩ := here
      rw [release (by omega),pe]
      rfl
    · rename_i elsewhere
      rw [if_neg elsewhere] at full
      exact tagged.releases q above below full

theorem step_balanced (both : Balanced n s ∧ Tagged n s) (moved : s.step n event = some t) :
    Balanced n t ∧ Tagged n t := by
  obtain ⟨balanced,tagged⟩ := both
  cases event with
  | advance me =>
    simp only [Barrier.step] at moved
    split at moved
    · rename_i inside
      obtain ⟨⟨next,effect⟩,ran,same⟩ := Option.map_eq_some_iff.mp moved
      subst t
      by_cases root : me = 0
      · subst me
        exact ⟨root_balanced balanced inside ran,root_tagged balanced tagged inside ran⟩
      · have other := Nat.pos_of_ne_zero root
        exact ⟨peer_balanced balanced other inside ran,peer_tagged balanced tagged other inside ran⟩
    · cases moved
  | deliver flight =>
    simp only [Barrier.step] at moved
    split at moved
    · rename_i member
      cases moved
      exact ⟨deliver_balanced balanced (tagged.flights flight member) member,deliver_tagged balanced tagged member⟩
    · cases moved

theorem start_tagged (n : Nat) : Tagged n Barrier.start := by
  refine ⟨?_,?_,?_⟩
  · intro flight member
    cases member
  · intro q above below full
    exact False.elim (full rfl)
  · intro q above below full
    exact False.elim (full rfl)

theorem Balanced.returns_root (balanced : Balanced n s) (positive : 0 < n) (q : Nat) : s.returns 0 ≤ s.collected q := by
  have returned := balanced.returned 0 positive
  unfold Barrier.collected
  cases pc : s.pc 0 with
  | outside =>
    simp only [pc,if_true,Pc.collected] at returned ⊢
    omega
  | collect i =>
    simp only [pc,reduceCtorEq,if_false,Pc.collected] at returned ⊢
    split <;> omega
  | clear i =>
    simp only [pc,reduceCtorEq,if_false,Pc.collected] at returned ⊢
    split <;> omega
  | _ =>
    simp only [pc,reduceCtorEq,if_false,Pc.collected] at returned ⊢
    omega

theorem Balanced.returns_peer (balanced : Balanced n s) (below : q < n) : s.returns q ≤ s.awaited q := by
  have returned := balanced.returned q below
  unfold Barrier.awaited
  cases pc : s.pc q <;> simp only [pc,reduceCtorEq,if_false,if_true,Pc.awaited] at returned ⊢ <;> omega

-- PE 0 puts no release before it has taken every arrival.
theorem released_le (s : Barrier) (p q : Nat) : s.released p ≤ s.collected q ∧ s.released p ≤ s.calls 0 := by
  unfold Barrier.released Barrier.collected
  cases s.pc 0 <;> simp only [Pc.released,Pc.collected] <;> constructor <;> first | omega | (split <;> omega)

theorem arrived_le (s : Barrier) (q : Nat) : s.arrived q ≤ s.calls q := by
  unfold Barrier.arrived
  cases s.pc q <;> simp only [Pc.arrived] <;> omega

theorem Balanced.returns_le (balanced : Balanced n s) (insideI : i < n) (insideJ : j < n) : s.returns i ≤ s.calls j := by
  by_cases same : i = j
  · subst j
    have returned := balanced.returned i insideI
    omega
  by_cases rootI : i = 0
  · subst i
    have above : 0 < j := Nat.pos_of_ne_zero (Ne.symm same)
    have returned := balanced.returns_root insideI j
    have order := balanced.order above insideJ
    have called := arrived_le s j
    omega
  · have above := Nat.pos_of_ne_zero rootI
    have returned := balanced.returns_peer insideI
    have order := balanced.order above insideI
    by_cases rootJ : j = 0
    · subst j
      have released := (released_le s i 0).2
      omega
    · have order' := balanced.order (Nat.pos_of_ne_zero rootJ) insideJ
      have released := (released_le s i j).1
      have called := arrived_le s j
      omega

-- No PE returns from its k-th call before every PE has made k calls.
theorem returns_le_calls (n : Nat) (events : List BarrierEvent)
    (ran : (barriers n).run Barrier.start events = some s) :
    ∀ i < n, ∀ j < n, s.returns i ≤ s.calls j := by
  obtain ⟨balanced,_⟩ := Guarded.Machine.run_invariant (fun _ _ _ => step_balanced)
    ⟨start_balanced n,start_tagged n⟩ ran
  intro i insideI j insideJ
  exact balanced.returns_le insideI insideJ

-- Both PEs get through their first round: PE 0 collects the signal of PE 1 and releases it.
theorem returns_le_calls_two : ∃ s, (barriers 2).run Barrier.start
    [.advance 1,.advance 1,.advance 0,.deliver ⟨0,1,1⟩,.advance 0,.advance 0,.advance 0,.deliver ⟨1,1,1⟩,
      .advance 0,.advance 1,.advance 1,.advance 1] = some s ∧ ∀ i < 2, ∀ j < 2, s.returns i ≤ s.calls j := by
  obtain ⟨s,ran⟩ := Option.isSome_iff_exists.mp (by decide +kernel : ((barriers 2).run Barrier.start
    [.advance 1,.advance 1,.advance 0,.deliver ⟨0,1,1⟩,.advance 0,.advance 0,.advance 0,.deliver ⟨1,1,1⟩,
      .advance 0,.advance 1,.advance 1,.advance 1]).isSome)
  exact ⟨s,ran,returns_le_calls 2 _ ran⟩

-- The slot that the thread is about to set back to 0.
def Pc.clears (me : Nat) : Pc → Option Nat
  | .clear i => some i
  | .reset => some me
  | _ => none

-- Every PE calls comm_barrier_all `rounds` times.
def Within (rounds : Nat) (s : Barrier) : BarrierEvent → Prop
  | .advance me => s.pc me = .outside → s.calls me < rounds
  | .deliver _ => True

instance (rounds : Nat) (s : Barrier) : (event : BarrierEvent) → Decidable (Within rounds s event)
  | .advance me => inferInstanceAs (Decidable (s.pc me = .outside → s.calls me < rounds))
  | .deliver _ => inferInstanceAs (Decidable True)

theorem calls_bounded (bounded : ∀ p, s.calls p ≤ rounds) (within : Within rounds s event)
    (moved : s.step n event = some t) : ∀ p, t.calls p ≤ rounds := by
  intro p
  cases event with
  | advance me =>
    simp only [Barrier.step] at moved
    split at moved
    · rename_i inside
      obtain ⟨⟨next,effect⟩,ran,same⟩ := Option.map_eq_some_iff.mp moved
      subst t
      by_cases here : p = me
      · subst p
        rw [(perform_self me next effect).2.1]
        have before := bounded me
        by_cases outside : s.pc me = .outside
        · have room := within outside
          have one : effect.calls ≤ 1 := by cases effect <;> simp [Effect.calls]
          omega
        · have none : effect.calls = 0 := by
            cases pc : s.pc me with
            | outside => exact False.elim (outside pc)
            | collect i =>
              rw [pc] at ran
              simp only [commBarrierAll] at ran
              split at ran <;> cases ran
              rfl
            | await =>
              rw [pc] at ran
              simp only [commBarrierAll] at ran
              split at ran <;> cases ran
              rfl
            | _ =>
              rw [pc] at ran
              cases ran
              rfl
          omega
      · rw [(perform_others me next effect p here).2.1]
        exact bounded p
    · cases moved
  | deliver flight =>
    simp only [Barrier.step] at moved
    split at moved
    · cases moved
      exact bounded p
    · cases moved

theorem advance_enabled (inside : me < n) (moves : ∃ next, commBarrierAll n me (s.pSync me) (s.pc me) = some next)
    (within : s.pc me = .outside → s.calls me < rounds) :
    ∃ event t, Within rounds s event ∧ s.step n event = some t := by
  obtain ⟨next,moved⟩ := moves
  refine ⟨.advance me,s.perform me next.1 next.2,within,?_⟩
  simp only [Barrier.step]
  rw [if_pos inside,moved]
  rfl

-- A PE that is not PE 0 can go on unless it waits for its release.
theorem peer_enabled (balanced : Balanced n s) (above : 0 < q) (below : q < n)
    (called : s.pc q = .outside → s.calls q < rounds) (full : s.pc q = .await → s.pSync q q ≠ 0) :
    ∃ event t, Within rounds s event ∧ s.step n event = some t := by
  refine advance_enabled below ?_ called
  have peer := balanced.peers q above below
  cases pc : s.pc q with
  | await => exact ⟨(.reset,.nothing),by simp only [commBarrierAll,if_neg (full pc)]⟩
  | collect i => rw [pc] at peer; cases peer
  | clear i => rw [pc] at peer; cases peer
  | release i => rw [pc] at peer; cases peer
  | _ => exact ⟨_,rfl⟩

theorem barrier_enabled (balanced : Balanced n s) (bounded : ∀ p, s.calls p ≤ rounds)
    (busy : ∃ p < n, s.pc p ≠ .outside) : ∃ event t, Within rounds s event ∧ s.step n event = some t := by
  obtain ⟨p,inside,busy⟩ := busy
  by_cases flying : s.flights = []
  · have still : ∀ pe slot, s.inFlight pe slot = 0 := by
      intro pe slot
      simp [Barrier.inFlight,flying]
    have positive : 0 < n := Nat.lt_of_le_of_lt (Nat.zero_le _) inside
    have root := balanced.root
    cases pc : s.pc 0 with
    | collect i =>
      rw [pc] at root
      by_cases full : s.pSync 0 i = 0
      · -- PE 0 spins on the slot of PE i, whose arrival of this round was not put yet.
        have arrivals := balanced.arrivals i root.1 root.2
        have releases := balanced.releases i root.1 root.2
        have limit := bounded 0
        have called := balanced.busy 0 positive (by rw [pc]; simp)
        rw [still,full] at arrivals
        rw [still] at releases
        have behind : s.collected i = s.calls 0 - 1 := by simp [Barrier.collected,pc,Pc.collected]
        have unreleased : s.released i = s.calls 0 - 1 := by simp [Barrier.released,pc,Pc.released]
        have zero : held (0 : BitVec 32) = 0 := rfl
        refine peer_enabled balanced root.1 root.2 ?_ ?_
        · intro outside
          have arrived : s.arrived i = s.calls i := by simp [Barrier.arrived,outside,Pc.arrived]
          omega
        · intro waiting empty
          have arrived : s.arrived i = s.calls i := by simp [Barrier.arrived,waiting,Pc.arrived]
          have awaited : s.awaited i = s.calls i - 1 := by simp [Barrier.awaited,waiting,Pc.awaited]
          have some := balanced.busy i root.2 (by rw [waiting]; simp)
          rw [empty] at releases
          omega
      · refine advance_enabled positive ⟨(.clear i,.nothing),by simp only [pc,commBarrierAll,if_neg full]⟩ ?_
        simp [pc]
    | outside =>
      by_cases more : s.calls 0 < rounds
      · exact advance_enabled positive ⟨_,by rw [pc]; rfl⟩ fun _ => more
      · have above : 0 < p := by
          refine Nat.pos_of_ne_zero ?_
          intro zero
          subst p
          exact busy pc
        have releases := balanced.releases p above inside
        have limit := bounded p
        rw [still] at releases
        have released : s.released p = s.calls 0 := by simp [Barrier.released,pc,Pc.released]
        refine peer_enabled balanced above inside (fun outside => False.elim (busy outside)) ?_
        intro waiting empty
        have awaited : s.awaited p = s.calls p - 1 := by simp [Barrier.awaited,waiting,Pc.awaited]
        have some := balanced.busy p inside busy
        have zero : held (0 : BitVec 32) = 0 := rfl
        rw [empty] at releases
        omega
    | arrive => rw [pc] at root; cases root
    | await => rw [pc] at root; cases root
    | reset => rw [pc] at root; cases root
    | _ => exact advance_enabled positive ⟨_,by rw [pc]; rfl⟩ (by simp [pc])
  · obtain ⟨flight,member⟩ := List.exists_mem_of_ne_nil _ flying
    exact ⟨.deliver flight,s.deliver flight,trivial,by simp [Barrier.step,member]⟩

-- No signal is put onto another one, none is cleared before its round, and a PE inside the
-- barrier never leaves the whole system without a step.
theorem signals_kept (n rounds : Nat) (events : List BarrierEvent)
    (meets : (barriers n).Meets (Within rounds) Barrier.start events)
    (ran : (barriers n).run Barrier.start events = some s) :
    (∀ flight ∈ s.flights, s.pSync flight.pe flight.slot = 0) ∧
    (∀ me < n, ∀ slot, (s.pc me).clears me = some slot → s.pSync me slot ≠ 0 ∧ s.mark me slot = s.calls me) ∧
    ((∃ p < n, s.pc p ≠ .outside) → ∃ event t, Within rounds s event ∧ s.step n event = some t) := by
  have steps : ∀ s event t, ((Balanced n s ∧ Tagged n s) ∧ ∀ p, s.calls p ≤ rounds) → Within rounds s event →
      (barriers n).step s event = some t → (Balanced n t ∧ Tagged n t) ∧ ∀ p, t.calls p ≤ rounds := by
    intro s event t both within moved
    exact ⟨step_balanced both.1 moved,calls_bounded both.2 within moved⟩
  obtain ⟨⟨balanced,tagged⟩,bounded⟩ := Guarded.Machine.run_keeps steps
    ⟨⟨start_balanced n,start_tagged n⟩,fun _ => Nat.zero_le _⟩ meets ran
  refine ⟨?_,?_,barrier_enabled balanced bounded⟩
  · intro flight member
    exact ((tagged.flights flight member).due balanced member).1
  · intro me inside slot clears
    by_cases root : me = 0
    · subst me
      have place := balanced.root
      cases pc : s.pc 0 <;> rw [pc] at clears place <;> cases clears
      · have full := balanced.clear slot pc
        have called := balanced.busy 0 inside (by rw [pc]; simp)
        have mark := tagged.arrivals slot place.1 place.2 full
        simp only [Barrier.collected,pc,Pc.collected,Nat.le_refl,if_true] at mark
        exact ⟨full,by omega⟩
      · cases place
    · have above := Nat.pos_of_ne_zero root
      have place := balanced.peers me above inside
      cases pc : s.pc me <;> rw [pc] at clears place <;> cases clears
      · cases place
      · have full := balanced.reset me above inside pc
        have called := balanced.busy me inside (by rw [pc]; simp)
        have mark := tagged.releases me above inside full
        simp only [Barrier.awaited,pc,Pc.awaited] at mark
        exact ⟨full,by omega⟩

-- Two PEs that call the barrier twice, PE 1 already in its second call.
theorem signals_kept_two : ∃ s, (barriers 2).run Barrier.start
    [.advance 1,.advance 1,.advance 0,.deliver ⟨0,1,1⟩,.advance 0,.advance 0,.advance 0,.deliver ⟨1,1,1⟩,
      .advance 1,.advance 1,.advance 1,.advance 1,.advance 1] = some s ∧
    (∀ flight ∈ s.flights, s.pSync flight.pe flight.slot = 0) ∧
    (∀ me < 2, ∀ slot, (s.pc me).clears me = some slot → s.pSync me slot ≠ 0 ∧ s.mark me slot = s.calls me) ∧
    ((∃ p < 2, s.pc p ≠ .outside) → ∃ event t, Within 2 s event ∧ s.step 2 event = some t) := by
  let events : List BarrierEvent := [.advance 1,.advance 1,.advance 0,.deliver ⟨0,1,1⟩,.advance 0,.advance 0,
    .advance 0,.deliver ⟨1,1,1⟩,.advance 1,.advance 1,.advance 1,.advance 1,.advance 1]
  obtain ⟨s,ran⟩ := Option.isSome_iff_exists.mp (by decide +kernel : ((barriers 2).run Barrier.start events).isSome)
  exact ⟨s,ran,signals_kept 2 2 events (by decide +kernel) ran⟩

end OpenShmem
