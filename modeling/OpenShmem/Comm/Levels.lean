import OpenShmem.Comm.Wireup
import Mathlib.Data.Finset.Card

namespace OpenShmem

-- The slots that the rounds of the servers are for.
def Action.slot : Action → Option Nat
  | .connect _ _ => none
  | .accept slot => some slot

def roundSlots (actions : List Action) : List Nat := actions.filterMap Action.slot

variable {job : Job} {stride left k me a b : Nat} {actions : List Action}

@[simp] theorem slots_accept : roundSlots (.accept slot :: actions) = slot :: roundSlots actions := rfl
@[simp] theorem slots_connect : roundSlots (.connect pe index :: actions) = roundSlots actions := rfl

theorem mem_dials : pe ∈ dials actions ↔ ∃ index, .connect pe index ∈ actions := by
  unfold dials
  rw [List.mem_filterMap]
  constructor
  · intro ⟨action,member,dialed⟩
    cases action with
    | accept slot => cases dialed
    | connect target index =>
      cases dialed
      exact ⟨index,member⟩
  · intro ⟨index,member⟩
    exact ⟨_,member,rfl⟩

theorem server_accepts (member : action ∈ wireActions job me (.server stride)) : ∃ slot, action = .accept slot := by
  obtain ⟨slot,_,found⟩ := List.mem_filterMap.mp member
  obtain ⟨entry,_,made⟩ := Option.bind_eq_some_iff.mp found
  split at made
  · cases made
  · exact ⟨slot,(Option.some.inj made).symm⟩

theorem client_connects (member : action ∈ wireActions job me (.client stride)) : ∃ pe index, action = .connect pe index := by
  obtain ⟨pe,_,found⟩ := List.mem_filterMap.mp member
  obtain ⟨entry,_,made⟩ := Option.bind_eq_some_iff.mp found
  split at made
  · cases made
  · exact ⟨pe,entry.index,(Option.some.inj made).symm⟩

theorem slots_client : roundSlots (wireActions job me (.client stride)) = [] := by
  unfold roundSlots
  rw [List.filterMap_eq_nil_iff]
  intro action member
  obtain ⟨pe,index,rfl⟩ := client_connects member
  rfl

theorem slots_server : roundSlots (wireActions job me (.server stride)) =
    (strided job.n stride job.n (serverStart me stride)).filter fun slot => job.node me ≠ job.node slot := by
  unfold roundSlots wireActions
  rw [List.filterMap_filterMap,← List.filterMap_eq_filter]
  refine List.filterMap_congr ?_
  intro slot member
  have inside : slot < job.n := strided_lt member
  obtain ⟨entry,found,near,_⟩ := job.map_eq me inside
  simp only [found,Option.bind_some]
  by_cases same : job.node me = job.node slot
  · simp [near.mpr same,same,Option.guard]
  · have remote : entry.type ≠ .near := fun type => same (near.mp type)
    simp [remote,same,Action.slot]

theorem mem_slots_server (positive : 0 < stride) (inside : a < job.n) :
    a ∈ roundSlots (wireActions job me (.server stride)) ↔ job.node me ≠ job.node a ∧
      serverStart me stride ≤ a ∧ (a - serverStart me stride) % stride = 0 := by
  rw [slots_server,List.mem_filter,mem_strided positive (Nat.le_add_left _ _)]
  simp only [inside,true_and,decide_eq_true_eq]
  exact And.comm

def wireSlots (job : Job) (me : Nat) (calls : List WireCall) : List Nat := roundSlots (calls.flatMap (wireActions job me))

theorem wireSlots_cons : wireSlots job me (call :: calls) = roundSlots (wireActions job me call) ++ wireSlots job me calls := by
  simp [wireSlots,roundSlots]

-- The slots of a server at a later level are the PEs whose half has its lowest bit there.
theorem serverStart_iff : serverStart me (2 <<< (k+1)) ≤ a ∧ (a - serverStart me (2 <<< (k+1))) % (2 <<< (k+1)) = 0 ↔
    a % 2 = me % 2 ∧ LowestBit k (a / 2) := by
  have half : (2 <<< (k+1)) >>> 1 = 2 * 2^k := by
    rw [Nat.shiftLeft_eq,Nat.shiftRight_eq_div_pow,Nat.pow_succ]
    omega
  have whole : 2 <<< (k+1) = 2 * 2^(k+1) := Nat.shiftLeft_eq 2 (k+1)
  have double : 2^(k+1) = 2 * 2^k := by rw [Nat.pow_succ]; omega
  have positive := Nat.two_pow_pos k
  have small : serverStart me (2 <<< (k+1)) < 2 <<< (k+1) := by
    unfold serverStart
    rw [half,whole]
    omega
  rw [aligned_iff small,mod_level]
  unfold serverStart LowestBit
  rw [half]
  have rest := Nat.mod_lt (a / 2) (Nat.two_pow_pos (k+1))
  omega

theorem late_slots (left : Nat) (reached : me / 2 % 2^k = 0) (inside : a < job.n) :
    a ∈ wireSlots job me (wireLoop me left (k+1) false) ↔ job.node me ≠ job.node a ∧ a % 2 = me % 2 ∧
      ∃ j, k ≤ j ∧ j < k + left ∧ LowestBit j (a / 2) ∧ me / 2 % 2^(j+1) = 0 := by
  induction left generalizing k with
  | zero =>
    refine ⟨fun member => ?_,fun ⟨_,_,j,low,high,_⟩ => ?_⟩
    · cases member
    · omega
  | succ left ih =>
    rw [wireLoop_late]
    by_cases server : me / 2 % 2^(k+1) = 0
    · have here : a ∈ roundSlots (wireActions job me (.server (2 <<< (k+1)))) ↔ _ := mem_slots_server stride_positive inside
      rw [serverStart_iff] at here
      rw [if_pos server,wireSlots_cons,List.mem_append,here,ih server]
      constructor
      · intro either
        rcases either with ⟨other,parity,bit⟩ | ⟨other,parity,j,low,high,rest⟩
        · exact ⟨other,parity,k,Nat.le_refl k,by omega,bit,server⟩
        · exact ⟨other,parity,j,by omega,by omega,rest⟩
      · intro ⟨other,parity,j,low,high,bit,residue⟩
        by_cases first : j = k
        · subst j
          exact Or.inl ⟨other,parity,bit⟩
        · exact Or.inr ⟨other,parity,j,by omega,by omega,bit,residue⟩
    · rw [if_neg server,wireSlots_cons,slots_client,List.nil_append]
      constructor
      · intro member
        cases member
      · intro ⟨_,_,j,low,_,_,residue⟩
        exact False.elim (server (mod_pow_zero (by omega) residue))

theorem slots_server_nodup (positive : 0 < stride) : (roundSlots (wireActions job me (.server stride))).Nodup := by
  rw [slots_server]
  exact (strided_nodup positive).filter _

theorem mem_slots_inside (member : a ∈ roundSlots (wireActions job me (.server stride))) : a < job.n := by
  rw [slots_server] at member
  exact strided_lt (List.mem_filter.mp member).1

theorem late_slots_nodup (left : Nat) (reached : me / 2 % 2^k = 0) :
    (wireSlots job me (wireLoop me left (k+1) false)).Nodup := by
  induction left generalizing k with
  | zero => exact List.nodup_nil
  | succ left ih =>
    rw [wireLoop_late]
    by_cases server : me / 2 % 2^(k+1) = 0
    · rw [if_pos server,wireSlots_cons]
      refine List.nodup_append.mpr ⟨slots_server_nodup stride_positive,ih server,?_⟩
      intro a member c also same
      subst c
      have inside := mem_slots_inside member
      -- A half has one lowest bit, so a PE has a slot at one level only.
      have here := (serverStart_iff.mp ((mem_slots_server stride_positive inside).mp member).2).2
      obtain ⟨_,_,j,low,_,bit,_⟩ := (late_slots left server inside).mp also
      have level := here.unique bit
      omega
    · rw [if_neg server,wireSlots_cons,slots_client,List.nil_append]
      exact List.nodup_nil

theorem zero_slots (inside : a < job.n) :
    a ∈ roundSlots (wireActions job me (.server (2 <<< 0))) ↔ job.node me ≠ job.node a ∧ a % 2 ≠ me % 2 ∧ me % 2 + 1 ≤ a := by
  have start : serverStart me (2 <<< 0) = me % 2 + 1 := rfl
  have stride : 2 <<< 0 = 2 := rfl
  rw [mem_slots_server stride_positive inside,start,stride]
  constructor
  · intro ⟨other,above,aligned⟩
    exact ⟨other,by omega,above⟩
  · intro ⟨other,parity,above⟩
    exact ⟨other,above,by omega⟩

-- A server has exactly one slot for each PE that dials it.
theorem program_slots (here : b < job.n) (there : a < job.n) :
    a ∈ roundSlots (wireProgram job b) ↔ job.node b ≠ job.node a ∧ Calls a b := by
  have program : roundSlots (wireProgram job b) = wireSlots job b (commRemoteWireup b job.n) := rfl
  have whole : b / 2 % 2^0 = 0 := Nat.mod_one _
  rw [program]
  unfold commRemoteWireup Calls
  cases levels : Nat.clog 2 job.n with
  | zero =>
    have one : job.n ≤ 1 := by
      have top := Nat.le_pow_clog Nat.one_lt_two job.n
      rw [levels] at top
      exact top
    have same : a = b := by omega
    subst same
    refine ⟨fun member => ?_,fun both => False.elim (both.1 rfl)⟩
    cases member
  | succ left =>
    have late := late_slots left whole there
    have later : a ∈ wireSlots job b (wireLoop b left 1 false) ↔ job.node b ≠ job.node a ∧
        b % 2 = a % 2 ∧ ∃ k, LowestBit k (a / 2) ∧ b / 2 % 2^(k+1) = 0 := by
      refine late.trans ⟨?_,?_⟩
      · intro ⟨other,parity,k,_,_,rest⟩
        exact ⟨other,parity.symm,k,rest⟩
      · intro ⟨other,parity,k,bit,residue⟩
        have level := lowestBit_level bit there
        exact ⟨other,parity.symm,k,Nat.zero_le _,by omega,bit,residue⟩
    by_cases even : b % 2 = 0
    · rw [wireLoop_zero even,wireSlots_cons,List.mem_append,zero_slots there,later]
      constructor
      · intro either
        rcases either with ⟨other,parity,_⟩ | ⟨other,rest⟩
        · exact ⟨other,Or.inl ⟨by omega,even⟩⟩
        · exact ⟨other,Or.inr rest⟩
      · intro ⟨other,either⟩
        rcases either with ⟨odd,_⟩ | rest
        · exact Or.inl ⟨other,by omega,by omega⟩
        · exact Or.inr ⟨other,rest⟩
    · have odd : b % 2 = 1 := by omega
      rw [wireLoop_odd odd,wireSlots_cons,slots_client,List.nil_append,later]
      constructor
      · intro ⟨other,rest⟩
        exact ⟨other,Or.inr rest⟩
      · intro ⟨other,either⟩
        rcases either with ⟨_,zero⟩ | rest
        · omega
        · exact ⟨other,rest⟩

theorem wireSlots_inside (member : a ∈ wireSlots job me calls) : a < job.n := by
  obtain ⟨action,found,slot⟩ := List.mem_filterMap.mp member
  obtain ⟨call,_,found⟩ := List.mem_flatMap.mp found
  have listed : a ∈ roundSlots (wireActions job me call) := List.mem_filterMap.mpr ⟨action,found,slot⟩
  cases call with
  | server stride => exact mem_slots_inside listed
  | client stride =>
    rw [slots_client] at listed
    cases listed

theorem program_slots_nodup : (roundSlots (wireProgram job b)).Nodup := by
  have program : roundSlots (wireProgram job b) = wireSlots job b (commRemoteWireup b job.n) := rfl
  have whole : b / 2 % 2^0 = 0 := Nat.mod_one _
  rw [program]
  unfold commRemoteWireup
  cases levels : Nat.clog 2 job.n with
  | zero => exact List.nodup_nil
  | succ left =>
    by_cases even : b % 2 = 0
    · rw [wireLoop_zero even,wireSlots_cons]
      refine List.nodup_append.mpr ⟨slots_server_nodup stride_positive,late_slots_nodup left whole,?_⟩
      intro a member c also same
      subst c
      have inside := mem_slots_inside member
      have parity := ((zero_slots inside).mp member).2.1
      have parity' := ((late_slots left whole inside).mp also).2.1
      exact parity parity'
    · have odd : b % 2 = 1 := by omega
      rw [wireLoop_odd odd,wireSlots_cons,slots_client,List.nil_append]
      exact late_slots_nodup left whole

def callers (job : Job) (b : Nat) (todo : Nat → List Action) : Finset Nat :=
  (Finset.range job.n).filter fun a => b ∈ dials (todo a)

theorem mem_callers : a ∈ callers job b todo ↔ a < job.n ∧ b ∈ dials (todo a) := by
  rw [callers,Finset.mem_filter,Finset.mem_range]

-- The stride formulas of both roles count the same connections.
theorem program_count (here : b < job.n) :
    (roundSlots (wireProgram job b)).length = (callers job b (wireProgram job)).card := by
  rw [← List.toFinset_card_of_nodup program_slots_nodup]
  congr 1
  ext a
  rw [List.mem_toFinset,mem_callers]
  constructor
  · intro member
    have there := wireSlots_inside member
    obtain ⟨other,calls⟩ := (program_slots here there).mp member
    exact ⟨there,(program_dials there here).1.mpr ⟨other.symm,calls⟩⟩
  · intro ⟨there,dialed⟩
    obtain ⟨other,calls⟩ := (program_dials there here).1.mp dialed
    exact (program_slots here there).mpr ⟨other.symm,calls⟩

-- What may come later in a program: after an accept only PEs of the own parity are
-- dialed, and after such a one nothing is accepted.
def Later (me : Nat) : Action → Action → Prop
  | .accept _,.connect pe _ => pe % 2 = me % 2
  | .connect pe _,.accept _ => pe % 2 ≠ me % 2
  | _,_ => True

def Staged (me : Nat) (todo : List Action) : Prop := todo.Pairwise (Later me)

theorem Staged.tail (staged : Staged me (action :: rest)) : Staged me rest := (List.pairwise_cons.mp staged).2

theorem Staged.serving (staged : Staged me (.accept slot :: rest)) (dialed : pe ∈ dials rest) : pe % 2 = me % 2 := by
  obtain ⟨index,member⟩ := mem_dials.mp dialed
  exact (List.pairwise_cons.mp staged).1 _ member

theorem Staged.calling (staged : Staged me (.connect pe index :: rest)) (parity : pe % 2 = me % 2) : roundSlots rest = [] := by
  unfold roundSlots
  rw [List.filterMap_eq_nil_iff]
  intro action member
  cases action with
  | connect target index => rfl
  | accept slot => exact False.elim ((List.pairwise_cons.mp staged).1 _ member parity)

theorem staged_accepts (accepts : ∀ action ∈ first, ∃ slot, action = .accept slot) (staged : Staged me rest)
    (parity : ∀ pe ∈ dials rest, pe % 2 = me % 2) : Staged me (first ++ rest) := by
  refine List.pairwise_append.mpr ⟨List.pairwise_of_forall_mem_list ?_,staged,?_⟩
  · intro x one y two
    obtain ⟨slot,rfl⟩ := accepts x one
    obtain ⟨slot,rfl⟩ := accepts y two
    trivial
  · intro x one y two
    obtain ⟨slot,rfl⟩ := accepts x one
    cases y with
    | accept slot => trivial
    | connect pe index => exact parity pe (mem_dials.mpr ⟨index,two⟩)

theorem staged_connects (connects : ∀ action ∈ first, ∃ pe index, action = .connect pe index) (staged : Staged me rest)
    (parity : ∀ pe ∈ dials first, pe % 2 = me % 2 → roundSlots rest = []) : Staged me (first ++ rest) := by
  refine List.pairwise_append.mpr ⟨List.pairwise_of_forall_mem_list ?_,staged,?_⟩
  · intro x one y two
    obtain ⟨pe,index,rfl⟩ := connects x one
    obtain ⟨target,index,rfl⟩ := connects y two
    trivial
  · intro x one y two
    obtain ⟨pe,index,rfl⟩ := connects x one
    cases y with
    | connect target index => trivial
    | accept slot =>
      intro same
      have empty := parity pe (mem_dials.mpr ⟨index,one⟩) same
      have member : slot ∈ roundSlots rest := List.mem_filterMap.mpr ⟨_,two,rfl⟩
      rw [empty] at member
      cases member

theorem wireDials_inside (member : a ∈ wireDials job me calls) : a < job.n := by
  obtain ⟨index,found⟩ := mem_dials.mp member
  obtain ⟨call,_,found⟩ := List.mem_flatMap.mp found
  have listed : a ∈ dials (wireActions job me call) := mem_dials.mpr ⟨index,found⟩
  cases call with
  | client stride =>
    rw [dials_client] at listed
    exact strided_lt (List.mem_filter.mp listed).1
  | server stride =>
    rw [dials_server] at listed
    cases listed

theorem late_staged (left : Nat) (reached : me / 2 % 2^k = 0) :
    Staged me ((wireLoop me left (k+1) false).flatMap (wireActions job me)) := by
  induction left generalizing k with
  | zero => exact List.Pairwise.nil
  | succ left ih =>
    rw [wireLoop_late]
    by_cases server : me / 2 % 2^(k+1) = 0
    · rw [if_pos server,List.flatMap_cons]
      refine staged_accepts (fun action => server_accepts) (ih server) ?_
      intro pe dialed
      exact ((late_dials left server (wireDials_inside dialed)).1.mp dialed).2.1
    · rw [if_neg server,List.flatMap_cons]
      exact staged_connects (fun action => client_connects) List.Pairwise.nil fun _ _ _ => rfl

theorem program_staged (job : Job) (me : Nat) : Staged me (wireProgram job me) := by
  have whole : me / 2 % 2^0 = 0 := Nat.mod_one _
  unfold wireProgram commRemoteWireup
  cases levels : Nat.clog 2 job.n with
  | zero => exact List.Pairwise.nil
  | succ left =>
    have late : Staged me ((wireLoop me left 1 false).flatMap (wireActions job me)) := late_staged left whole
    by_cases even : me % 2 = 0
    · rw [wireLoop_zero even,List.flatMap_cons]
      refine staged_accepts (fun action => server_accepts) late ?_
      intro pe dialed
      exact ((late_dials left whole (wireDials_inside dialed)).1.mp dialed).2.1
    · have odd : me % 2 = 1 := by omega
      rw [wireLoop_odd odd,List.flatMap_cons]
      refine staged_connects (fun action => client_connects) late ?_
      intro pe dialed parity
      rw [dials_client] at dialed
      obtain ⟨dialed,_⟩ := List.mem_filter.mp dialed
      have stride : 2 <<< 0 = 2 := rfl
      have start : clientStart me 2 = 0 := rfl
      rw [stride,start,mem_strided (by omega) (by omega)] at dialed
      omega

end OpenShmem
