import OpenShmem.Library.Machine
import Mathlib.Data.List.Count
import Mathlib.Logic.Function.Basic

namespace OpenShmem

-- Where a thread stands in comm_barrier_all. PE 0 tests and clears its slots one by one
-- and then puts the releases; every other PE puts its arrival and tests and clears one slot.
inductive Pc where
  | outside
  | collect (i : Nat)
  | clear (i : Nat)
  | release (i : Nat)
  | arrive
  | await
  | reset
  | leaving
deriving DecidableEq, Repr

inductive Effect where
  | nothing
  | call
  | signal (pe slot : Nat)
  | zero (slot : Nat)
  | ret
deriving DecidableEq, Repr

def releaseFrom (n i : Nat) : Pc := if i < n then .release i else .leaving
def collectFrom (n i : Nat) : Pc := if i < n then .collect i else releaseFrom n 1

-- One step of the calling thread; a thread that spins on an empty slot has none.
def commBarrierAll (n me : Nat) (pSync : Nat → BitVec 32) : Pc → Option (Pc × Effect)
  | .outside => some (if me = 0 then collectFrom n 1 else .arrive,.call)
  | .collect i => if pSync i = 0 then none else some (.clear i,.nothing)
  | .clear i => some (collectFrom n (i+1),.zero i)
  | .release i => some (releaseFrom n (i+1),.signal i i)
  | .arrive => some (.await,.signal 0 me)
  | .await => if pSync me = 0 then none else some (.reset,.nothing)
  | .reset => some (.leaving,.zero me)
  | .leaving => some (.outside,.ret)

-- A put of 1 on its way to a slot of a PE. `round` is a ghost: the call of comm_barrier_all
-- in which its sender made it.
structure Flight where
  pe : Nat
  slot : Nat
  round : Nat
deriving DecidableEq, Repr

-- `mark` is a ghost too: the round of the put that was applied to a slot last.
structure Barrier where
  pc : Nat → Pc
  calls : Nat → Nat
  returns : Nat → Nat
  pSync : Nat → Nat → BitVec 32
  mark : Nat → Nat → Nat
  flights : List Flight

inductive BarrierEvent where
  | advance (me : Nat)
  | deliver (flight : Flight)
deriving DecidableEq, Repr

def Effect.calls : Effect → Nat
  | .call => 1
  | _ => 0

def Effect.returns : Effect → Nat
  | .ret => 1
  | _ => 0

def Effect.flights (round : Nat) : Effect → List Flight
  | .signal pe slot => [⟨pe,slot,round⟩]
  | _ => []

def setSlot {α : Type} (slots : Nat → Nat → α) (pe slot : Nat) (value : α) : Nat → Nat → α :=
  Function.update slots pe (Function.update (slots pe) slot value)

def Effect.pSync (me : Nat) (slots : Nat → Nat → BitVec 32) : Effect → Nat → Nat → BitVec 32
  | .zero slot => setSlot slots me slot 0
  | _ => slots

def Barrier.perform (s : Barrier) (me : Nat) (pc : Pc) (effect : Effect) : Barrier where
  pc := Function.update s.pc me pc
  calls := Function.update s.calls me (s.calls me + effect.calls)
  returns := Function.update s.returns me (s.returns me + effect.returns)
  pSync := effect.pSync me s.pSync
  mark := s.mark
  flights := s.flights ++ effect.flights (s.calls me)

def Barrier.deliver (s : Barrier) (flight : Flight) : Barrier :=
  {s with
    pSync := setSlot s.pSync flight.pe flight.slot 1
    mark := setSlot s.mark flight.pe flight.slot flight.round
    flights := s.flights.erase flight}

def Barrier.start : Barrier := ⟨fun _ => .outside,fun _ => 0,fun _ => 0,fun _ _ => 0,fun _ _ => 0,[]⟩

def Barrier.step (n : Nat) (s : Barrier) : BarrierEvent → Option Barrier
  | .advance me =>
    if me < n then (commBarrierAll n me (s.pSync me) (s.pc me)).map fun next => s.perform me next.1 next.2
    else none
  | .deliver flight => if flight ∈ s.flights then some (s.deliver flight) else none

def barriers (n : Nat) : Guarded.Machine Barrier BarrierEvent := ⟨Barrier.step n⟩

-- How many arrivals of q PE 0 has taken from its slot, and how many releases it has put
-- for q, in all its calls so far.
def Pc.collected (calls q : Nat) : Pc → Nat
  | .collect i => if i ≤ q then calls - 1 else calls
  | .clear i => if i ≤ q then calls - 1 else calls
  | _ => calls

def Pc.released (calls q : Nat) : Pc → Nat
  | .collect _ => calls - 1
  | .clear _ => calls - 1
  | .release i => if i ≤ q then calls - 1 else calls
  | _ => calls

-- The same for another PE: the arrivals it has put and the releases it has taken.
def Pc.arrived (calls : Nat) : Pc → Nat
  | .arrive => calls - 1
  | _ => calls

def Pc.awaited (calls : Nat) : Pc → Nat
  | .arrive => calls - 1
  | .await => calls - 1
  | .reset => calls - 1
  | _ => calls

def Pc.Root (n : Nat) : Pc → Prop
  | .outside => True
  | .leaving => True
  | .collect i => 0 < i ∧ i < n
  | .clear i => 0 < i ∧ i < n
  | .release i => 0 < i ∧ i < n
  | _ => False

def Pc.Peer : Pc → Prop
  | .collect _ => False
  | .clear _ => False
  | .release _ => False
  | _ => True

variable {n me calls q i : Nat} {pSync : Nat → BitVec 32} {pc next : Pc} {effect : Effect}

theorem releaseFrom_root (positive : 0 < i) : (releaseFrom n i).Root n ∧
    (∀ c q, (releaseFrom n i).collected c q = c) ∧
    (∀ c, ∀ q < n, (releaseFrom n i).released c q = if i ≤ q then c - 1 else c) ∧
    releaseFrom n i ≠ .outside ∧ ∀ k, releaseFrom n i ≠ .clear k := by
  unfold releaseFrom
  by_cases more : i < n
  · rw [if_pos more]
    exact ⟨⟨positive,more⟩,fun _ _ => rfl,fun _ _ _ => rfl,by simp,by simp⟩
  · rw [if_neg more]
    refine ⟨trivial,fun _ _ => rfl,?_,by simp,by simp⟩
    intro c q below
    have beyond : ¬ i ≤ q := by omega
    rw [if_neg beyond]
    rfl

theorem collectFrom_root (positive : 0 < i) : (collectFrom n i).Root n ∧
    (∀ c, ∀ q < n, (collectFrom n i).collected c q = if i ≤ q then c - 1 else c) ∧
    (∀ c q, 0 < q → q < n → (collectFrom n i).released c q = c - 1) ∧
    collectFrom n i ≠ .outside ∧ ∀ k, collectFrom n i ≠ .clear k := by
  unfold collectFrom
  by_cases more : i < n
  · rw [if_pos more]
    exact ⟨⟨positive,more⟩,fun _ _ _ => rfl,fun _ _ _ _ => rfl,by simp,by simp⟩
  · rw [if_neg more]
    obtain ⟨root,collected,released,inside,apart⟩ := releaseFrom_root (n := n) Nat.one_pos
    refine ⟨root,?_,?_,inside,apart⟩
    · intro c q below
      have beyond : ¬ i ≤ q := by omega
      rw [collected,if_neg beyond]
    · intro c q above below
      rw [released c q below,if_pos (Nat.succ_le_of_lt above)]

-- What one step of PE 0 does to the four counts.
structure RootMoves (n : Nat) (pSync : Nat → BitVec 32) (calls : Nat) (pc next : Pc) (effect : Effect) : Prop where
  root : next.Root n
  busy : next ≠ .outside → 0 < calls + effect.calls
  collected : ∀ q, 0 < q → q < n → next.collected (calls + effect.calls) q =
    pc.collected calls q + if effect = .zero q then 1 else 0
  released : ∀ q, 0 < q → q < n → next.released (calls + effect.calls) q =
    pc.released calls q + if effect = .signal q q then 1 else 0
  zero : ∀ i, effect = .zero i → pc = .clear i
  signal : ∀ pe slot, effect = .signal pe slot → slot = pe ∧ pc = .release pe
  clear : ∀ i, next = .clear i → pSync i ≠ 0 ∧ effect = .nothing
  ret : effect.returns + (if next = .outside then 0 else 1) = effect.calls + if pc = .outside then 0 else 1

theorem root_moves (place : pc.Root n) (busy : pc ≠ .outside → 0 < calls)
    (moved : commBarrierAll n 0 pSync pc = some (next,effect)) : RootMoves n pSync calls pc next effect := by
  cases pc with
  | outside =>
    cases moved
    obtain ⟨root,collected,released,inside,apart⟩ := collectFrom_root (n := n) Nat.one_pos
    refine ⟨root,fun _ => Nat.succ_pos _,?_,?_,by simp,by simp,fun i same => False.elim (apart i same),?_⟩
    · intro q above below
      simp only [if_true]
      rw [collected _ q below,if_pos (Nat.succ_le_of_lt above)]
      rfl
    · intro q above below
      simp only [if_true]
      rw [released _ q above below]
      rfl
    · simp only [if_true]
      rw [if_neg inside]
      rfl
  | collect i =>
    simp only [commBarrierAll] at moved
    split at moved
    · cases moved
    · rename_i full
      cases moved
      refine ⟨place,fun _ => busy (by simp),fun _ _ _ => rfl,fun _ _ _ => rfl,by simp,by simp,?_,rfl⟩
      intro k same
      cases same
      exact ⟨full,rfl⟩
  | clear i =>
    cases moved
    have positive := busy (by simp)
    obtain ⟨root,collected,released,inside,apart⟩ := collectFrom_root (n := n) (Nat.succ_pos i)
    refine ⟨root,fun _ => positive,?_,?_,?_,by simp,fun k same => False.elim (apart k same),?_⟩
    · intro q above below
      rw [collected _ q below]
      simp only [Effect.calls,Pc.collected,Effect.zero.injEq,Nat.add_zero]
      split <;> split <;> split <;> omega
    · intro q above below
      rw [released _ q above below]
      simp [Effect.calls,Pc.released]
    · intro k same
      cases same
      rfl
    · rw [if_neg inside]
      rfl
  | release i =>
    cases moved
    have positive := busy (by simp)
    obtain ⟨root,collected,released,inside,apart⟩ := releaseFrom_root (n := n) (Nat.succ_pos i)
    refine ⟨root,fun _ => positive,?_,?_,by simp,?_,fun k same => False.elim (apart k same),?_⟩
    · intro q above below
      rw [collected]
      simp [Effect.calls,Pc.collected]
    · intro q above below
      rw [released _ q below]
      simp only [Effect.calls,Pc.released,Effect.signal.injEq,and_self,Nat.add_zero]
      split <;> split <;> split <;> omega
    · intro pe slot same
      cases same
      exact ⟨rfl,rfl⟩
    · rw [if_neg inside]
      rfl
  | leaving =>
    cases moved
    exact ⟨trivial,by simp,fun _ _ _ => rfl,fun _ _ _ => rfl,by simp,by simp,by simp,rfl⟩
  | arrive => cases place
  | await => cases place
  | reset => cases place

structure PeerMoves (me : Nat) (pSync : Nat → BitVec 32) (calls : Nat) (pc next : Pc) (effect : Effect) : Prop where
  peer : next.Peer
  busy : next ≠ .outside → 0 < calls + effect.calls
  arrived : next.arrived (calls + effect.calls) = pc.arrived calls + if effect = .signal 0 me then 1 else 0
  awaited : next.awaited (calls + effect.calls) = pc.awaited calls + if effect = .zero me then 1 else 0
  zero : ∀ i, effect = .zero i → i = me ∧ pc = .reset
  signal : ∀ pe slot, effect = .signal pe slot → pe = 0 ∧ slot = me ∧ pc = .arrive
  reset : next = .reset → pSync me ≠ 0 ∧ effect = .nothing
  ret : effect.returns + (if next = .outside then 0 else 1) = effect.calls + if pc = .outside then 0 else 1

theorem peer_moves (other : 0 < me) (place : pc.Peer) (busy : pc ≠ .outside → 0 < calls)
    (moved : commBarrierAll n me pSync pc = some (next,effect)) : PeerMoves me pSync calls pc next effect := by
  cases pc with
  | outside =>
    simp only [commBarrierAll,if_neg (Nat.ne_of_gt other)] at moved
    cases moved
    exact ⟨trivial,fun _ => Nat.succ_pos _,by simp [Pc.arrived,Effect.calls],by simp [Pc.awaited,Effect.calls],
      by simp,by simp,by simp,rfl⟩
  | arrive =>
    cases moved
    have positive := busy (by simp)
    refine ⟨trivial,fun _ => positive,?_,rfl,by simp,?_,by simp,rfl⟩
    · simp only [Pc.arrived,Effect.calls,if_true]
      omega
    · intro pe slot same
      cases same
      exact ⟨rfl,rfl,rfl⟩
  | await =>
    simp only [commBarrierAll] at moved
    split at moved
    · cases moved
    · rename_i full
      cases moved
      exact ⟨trivial,fun _ => busy (by simp),rfl,rfl,by simp,by simp,fun _ => ⟨full,rfl⟩,rfl⟩
  | reset =>
    cases moved
    have positive := busy (by simp)
    refine ⟨trivial,fun _ => positive,rfl,?_,?_,by simp,by simp,rfl⟩
    · simp only [Pc.awaited,Effect.calls,if_true]
      omega
    · intro i same
      cases same
      exact ⟨rfl,rfl⟩
  | leaving =>
    cases moved
    exact ⟨trivial,by simp,rfl,rfl,by simp,by simp,by simp,rfl⟩
  | collect i => cases place
  | clear i => cases place
  | release i => cases place

def held (value : BitVec 32) : Nat := if value = 0 then 0 else 1

def Barrier.inFlight (s : Barrier) (pe slot : Nat) : Nat :=
  s.flights.countP fun flight => flight.pe = pe ∧ flight.slot = slot

def Barrier.collected (s : Barrier) (q : Nat) : Nat := (s.pc 0).collected (s.calls 0) q
def Barrier.released (s : Barrier) (q : Nat) : Nat := (s.pc 0).released (s.calls 0) q
def Barrier.arrived (s : Barrier) (q : Nat) : Nat := (s.pc q).arrived (s.calls q)
def Barrier.awaited (s : Barrier) (q : Nat) : Nat := (s.pc q).awaited (s.calls q)

-- Signals are neither lost nor doubled: what was put is what was taken, what stands in the
-- slot and what is on its way.
structure Balanced (n : Nat) (s : Barrier) : Prop where
  root : (s.pc 0).Root n
  peers : ∀ q, 0 < q → q < n → (s.pc q).Peer
  busy : ∀ p, p < n → s.pc p ≠ .outside → 0 < s.calls p
  arrivals : ∀ q, 0 < q → q < n → s.arrived q = s.collected q + held (s.pSync 0 q) + s.inFlight 0 q
  releases : ∀ q, 0 < q → q < n → s.released q = s.awaited q + held (s.pSync q q) + s.inFlight q q
  clear : ∀ i, s.pc 0 = .clear i → s.pSync 0 i ≠ 0
  reset : ∀ q, 0 < q → q < n → s.pc q = .reset → s.pSync q q ≠ 0
  returned : ∀ p, p < n → s.returns p + (if s.pc p = .outside then 0 else 1) = s.calls p

variable {s t : Barrier}

theorem Balanced.order (balanced : Balanced n s) (above : 0 < q) (below : q < n) :
    s.awaited q ≤ s.released q ∧ s.released q ≤ s.collected q ∧ s.collected q ≤ s.arrived q ∧
      s.arrived q ≤ s.awaited q + 1 := by
  have arrivals := balanced.arrivals q above below
  have releases := balanced.releases q above below
  refine ⟨by omega,?_,by omega,?_⟩
  · unfold Barrier.released Barrier.collected
    cases s.pc 0 <;> simp only [Pc.released,Pc.collected] <;> first | omega | (split <;> omega)
  · unfold Barrier.arrived Barrier.awaited
    cases s.pc q <;> simp only [Pc.arrived,Pc.awaited] <;> omega

-- No channel ever holds more than one signal.
theorem Balanced.capacity (balanced : Balanced n s) (above : 0 < q) (below : q < n) :
    held (s.pSync 0 q) + s.inFlight 0 q ≤ 1 ∧ held (s.pSync q q) + s.inFlight q q ≤ 1 := by
  have arrivals := balanced.arrivals q above below
  have releases := balanced.releases q above below
  have order := balanced.order above below
  omega

theorem perform_inFlight (me : Nat) (next : Pc) (effect : Effect) (pe slot : Nat) :
    (s.perform me next effect).inFlight pe slot = s.inFlight pe slot + if effect = .signal pe slot then 1 else 0 := by
  unfold Barrier.inFlight Barrier.perform
  rw [List.countP_append]
  congr 1
  cases effect <;> simp [Effect.flights,List.countP_cons]

theorem perform_other (me : Nat) (next : Pc) (effect : Effect) (pe slot : Nat) (other : pe ≠ me) :
    (s.perform me next effect).pSync pe slot = s.pSync pe slot := by
  unfold Barrier.perform
  cases effect <;> simp [Effect.pSync,setSlot,other]

theorem perform_here (me : Nat) (next : Pc) (effect : Effect) (slot : Nat) :
    (s.perform me next effect).pSync me slot = if effect = .zero slot then 0 else s.pSync me slot := by
  unfold Barrier.perform
  cases effect with
  | zero k =>
    by_cases same : k = slot
    · simp [Effect.pSync,setSlot,same]
    · simp [Effect.pSync,setSlot,same,Ne.symm same]
  | _ => simp [Effect.pSync]

theorem perform_self (me : Nat) (next : Pc) (effect : Effect) : (s.perform me next effect).pc me = next ∧
    (s.perform me next effect).calls me = s.calls me + effect.calls ∧
    (s.perform me next effect).returns me = s.returns me + effect.returns := by
  simp [Barrier.perform]

theorem perform_others (me : Nat) (next : Pc) (effect : Effect) (q : Nat) (apart : q ≠ me) :
    (s.perform me next effect).pc q = s.pc q ∧ (s.perform me next effect).calls q = s.calls q ∧
    (s.perform me next effect).returns q = s.returns q := by
  simp [Barrier.perform,apart]

theorem start_balanced (n : Nat) : Balanced n Barrier.start := by
  refine ⟨trivial,fun _ _ _ => trivial,?_,?_,?_,?_,?_,?_⟩
  · intro p below busy
    exact False.elim (busy rfl)
  · intro q above below
    rfl
  · intro q above below
    rfl
  · intro i same
    cases same
  · intro q above below same
    cases same
  · intro p below
    rfl

theorem root_balanced (balanced : Balanced n s) (positive : 0 < n)
    (moved : commBarrierAll n 0 (s.pSync 0) (s.pc 0) = some (next,effect)) :
    Balanced n (s.perform 0 next effect) := by
  have moves := root_moves balanced.root (balanced.busy 0 positive) moved
  obtain ⟨here,count,returns⟩ := perform_self (s := s) 0 next effect
  have there := fun q (above : 0 < q) => perform_others (s := s) 0 next effect q (Nat.ne_of_gt above)
  refine ⟨?_,?_,?_,?_,?_,?_,?_,?_⟩
  · rw [here]
    exact moves.root
  · intro q above below
    rw [(there q above).1]
    exact balanced.peers q above below
  · intro p below busy
    by_cases zero : p = 0
    · subst p
      rw [here] at busy
      rw [count]
      exact moves.busy busy
    · obtain ⟨pc,calls,_⟩ := there p (Nat.pos_of_ne_zero zero)
      rw [pc] at busy
      rw [calls]
      exact balanced.busy p below busy
  · intro q above below
    have before := balanced.arrivals q above below
    have taken := moves.collected q above below
    have signal : effect ≠ .signal 0 q := by
      intro same
      have slot := (moves.signal 0 q same).1
      omega
    unfold Barrier.arrived Barrier.collected at before ⊢
    rw [(there q above).1,(there q above).2.1,here,count,taken,perform_here,perform_inFlight,if_neg signal]
    by_cases zero : effect = .zero q
    · have full := balanced.clear q (moves.zero q zero)
      rw [if_pos zero,if_pos zero]
      unfold held at before ⊢
      rw [if_neg full] at before
      simp only [if_true]
      omega
    · rw [if_neg zero,if_neg zero]
      omega
  · intro q above below
    have before := balanced.releases q above below
    have put := moves.released q above below
    unfold Barrier.released Barrier.awaited at before ⊢
    rw [(there q above).1,(there q above).2.1,here,count,put,perform_other _ _ _ _ _ (Nat.ne_of_gt above),
      perform_inFlight]
    omega
  · intro i same
    rw [here] at same
    obtain ⟨full,quiet⟩ := moves.clear i same
    rw [perform_here,quiet]
    exact full
  · intro q above below same
    rw [(there q above).1] at same
    rw [perform_other _ _ _ _ _ (Nat.ne_of_gt above)]
    exact balanced.reset q above below same
  · intro p below
    have before := balanced.returned p below
    by_cases zero : p = 0
    · subst p
      have ret := moves.ret
      rw [here,count,returns]
      omega
    · obtain ⟨pc,calls,returns⟩ := there p (Nat.pos_of_ne_zero zero)
      rw [pc,calls,returns]
      exact before

theorem peer_balanced (balanced : Balanced n s) (other : 0 < me) (below : me < n)
    (moved : commBarrierAll n me (s.pSync me) (s.pc me) = some (next,effect)) :
    Balanced n (s.perform me next effect) := by
  have moves := peer_moves other (balanced.peers me other below) (balanced.busy me below) moved
  obtain ⟨here,count,returns⟩ := perform_self (s := s) me next effect
  have there := perform_others (s := s) me next effect
  obtain ⟨rootPc,rootCalls,_⟩ := there 0 (Nat.ne_of_lt other)
  refine ⟨?_,?_,?_,?_,?_,?_,?_,?_⟩
  · rw [rootPc]
    exact balanced.root
  · intro q above inside
    by_cases same : q = me
    · subst q
      rw [here]
      exact moves.peer
    · rw [(there q same).1]
      exact balanced.peers q above inside
  · intro p inside busy
    by_cases same : p = me
    · subst p
      rw [here] at busy
      rw [count]
      exact moves.busy busy
    · rw [(there p same).1] at busy
      rw [(there p same).2.1]
      exact balanced.busy p inside busy
  · intro q above inside
    have before := balanced.arrivals q above inside
    unfold Barrier.arrived Barrier.collected at before ⊢
    rw [rootPc,rootCalls,perform_other _ _ _ _ _ (Nat.ne_of_lt other),perform_inFlight]
    by_cases same : q = me
    · subst q
      rw [here,count,moves.arrived]
      omega
    · have signal : effect ≠ .signal 0 q := fun signal => same (moves.signal 0 q signal).2.1
      rw [(there q same).1,(there q same).2.1,if_neg signal]
      exact before
  · intro q above inside
    have before := balanced.releases q above inside
    have signal : effect ≠ .signal q q := by
      intro signal
      have pe := (moves.signal q q signal).1
      omega
    unfold Barrier.released Barrier.awaited at before ⊢
    rw [rootPc,rootCalls,perform_inFlight,if_neg signal]
    by_cases same : q = me
    · subst q
      rw [here,count,moves.awaited,perform_here]
      by_cases zero : effect = .zero me
      · have full := balanced.reset me other below (moves.zero me zero).2
        rw [if_pos zero,if_pos zero]
        unfold held at before ⊢
        rw [if_neg full] at before
        simp only [if_true]
        omega
      · rw [if_neg zero,if_neg zero]
        omega
    · rw [(there q same).1,(there q same).2.1,perform_other _ _ _ _ _ same]
      exact before
  · intro i same
    rw [rootPc] at same
    rw [perform_other _ _ _ _ _ (Nat.ne_of_lt other)]
    exact balanced.clear i same
  · intro q above inside pc
    by_cases same : q = me
    · subst q
      rw [here] at pc
      obtain ⟨full,quiet⟩ := moves.reset pc
      rw [perform_here,quiet]
      exact full
    · rw [(there q same).1] at pc
      rw [perform_other _ _ _ _ _ same]
      exact balanced.reset q above inside pc
  · intro p inside
    have before := balanced.returned p inside
    by_cases same : p = me
    · subst p
      have ret := moves.ret
      rw [here,count,returns]
      omega
    · obtain ⟨pc,calls,returns⟩ := there p same
      rw [pc,calls,returns]
      exact before

end OpenShmem
