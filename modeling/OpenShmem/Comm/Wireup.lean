import OpenShmem.Comm.Locality
import Mathlib.Data.List.Count
import Mathlib.Data.Nat.Log

namespace OpenShmem

inductive WireCall where
  | server (stride : Nat)
  | client (stride : Nat)
deriving DecidableEq, Repr

-- The level loop of comm_remote_wireup, `left` levels before its end.
def wireLoop (me : Nat) : Nat → Nat → Bool → List WireCall
  | 0,_,_ => []
  | left+1,level,complete =>
    if complete then []
    else if me % 2 = 0 ∧ me % (2 <<< level) = 0 then
      .server (2 <<< level) :: wireLoop me left (level+1) complete
    else if 0 < level ∧ me % 2 = 1 ∧ me % (2 <<< level) = 1 then
      .server (2 <<< level) :: wireLoop me left (level+1) complete
    else .client (2 <<< level) :: wireLoop me left (level+1) (complete || 0 < level)

-- ceil(log2(n_pes)) levels.
def commRemoteWireup (me n : Nat) : List WireCall := wireLoop me (Nat.clog 2 n) 0 false

-- for (i = start; i < bound; i += stride), with fuel for its rounds.
def strided (bound stride : Nat) : Nat → Nat → List Nat
  | 0,_ => []
  | fuel+1,i => if i < bound then i :: strided bound stride fuel (i+stride) else []

def clientStart (me stride : Nat) : Nat := if 2 < stride ∧ me % 2 = 1 then 1 else 0
def serverStart (me stride : Nat) : Nat := me % 2 + stride >>> 1

inductive Action where
  | connect (pe index : Nat)
  | accept (slot : Nat)
deriving DecidableEq, Repr

-- The rounds of __comm_remote_wire_client and __comm_remote_wire_server that are not
-- skipped, with what each one waits for.
def wireActions (job : Job) (me : Nat) : WireCall → List Action
  | .client stride => (strided job.n stride job.n (clientStart me stride)).filterMap fun pe =>
      (job.localityMap me pe).bind fun entry =>
        if entry.type = .near then none else some (.connect pe entry.index)
  | .server stride => (strided job.n stride job.n (serverStart me stride)).filterMap fun slot =>
      (job.localityMap me slot).bind fun entry => if entry.type = .near then none else some (.accept slot)

def wireProgram (job : Job) (me : Nat) : List Action := (commRemoteWireup me job.n).flatMap (wireActions job me)

def Action.dialed : Action → Option Nat
  | .connect pe _ => some pe
  | .accept _ => none

def dials (actions : List Action) : List Nat := actions.filterMap Action.dialed

-- The lowest bit that is set in `half` has place k.
def LowestBit (k half : Nat) : Prop := half % 2^(k+1) = 2^k

variable {bound stride fuel start x k l half me left level n a b : Nat}

theorem mem_strided (positive : 0 < stride) (enough : bound ≤ start + fuel) :
    x ∈ strided bound stride fuel start ↔ x < bound ∧ start ≤ x ∧ (x - start) % stride = 0 := by
  induction fuel generalizing start with
  | zero =>
    simp only [strided,List.not_mem_nil,false_iff]
    omega
  | succ fuel ih =>
    unfold strided
    by_cases inside : start < bound
    · rw [if_pos inside,List.mem_cons,ih (by omega)]
      constructor
      · intro found
        rcases found with rfl | ⟨below,above,aligned⟩
        · exact ⟨inside,Nat.le_refl _,by simp⟩
        · refine ⟨below,by omega,?_⟩
          have back : x - start = x - (start + stride) + stride := by omega
          rw [back,Nat.add_mod_right,aligned]
      · intro ⟨below,above,aligned⟩
        by_cases same : x = start
        · exact Or.inl same
        · have far : stride ≤ x - start := Nat.le_of_dvd (by omega) (Nat.dvd_of_mod_eq_zero aligned)
          refine Or.inr ⟨below,by omega,?_⟩
          rw [Nat.sub_add_eq,← Nat.mod_eq_sub_mod far]
          exact aligned
    · rw [if_neg inside]
      simp only [List.not_mem_nil,false_iff]
      omega

theorem strided_lt (member : x ∈ strided bound stride fuel start) : x < bound := by
  induction fuel generalizing start with
  | zero => cases member
  | succ fuel ih =>
    unfold strided at member
    split at member
    · rcases List.mem_cons.mp member with rfl | later
      · assumption
      · exact ih later
    · cases member

theorem strided_nodup (positive : 0 < stride) : (strided bound stride fuel start).Nodup := by
  have ahead : ∀ fuel start, ∀ y ∈ strided bound stride fuel start, start ≤ y := by
    intro fuel
    induction fuel with
    | zero => intro start y member; cases member
    | succ fuel ih =>
      intro start y member
      unfold strided at member
      split at member
      · rcases List.mem_cons.mp member with rfl | later
        · exact Nat.le_refl _
        · exact Nat.le_trans (Nat.le_add_right _ _) (ih _ _ later)
      · cases member
  induction fuel generalizing start with
  | zero => exact List.nodup_nil
  | succ fuel ih =>
    unfold strided
    split
    · refine List.nodup_cons.mpr ⟨?_,ih⟩
      intro again
      have beyond := ahead _ _ _ again
      omega
    · exact List.nodup_nil

theorem lowestBit_exists (positive : 0 < half) : ∃ k, LowestBit k half := by
  induction half using Nat.strongRecOn with
  | ind half ih =>
    by_cases odd : half % 2 = 1
    · exact ⟨0,odd⟩
    · obtain ⟨k,bit⟩ := ih (half / 2) (by omega) (by omega)
      refine ⟨k+1,?_⟩
      unfold LowestBit at bit ⊢
      have double : half = 2 * (half / 2) := by omega
      rw [double,Nat.pow_succ',Nat.mul_mod_mul_left,bit,← Nat.pow_succ']

theorem LowestBit.below (bit : LowestBit k half) : half % 2^k = 0 := by
  have reduced : half % 2^(k+1) % 2^k = half % 2^k := Nat.mod_mod_of_dvd _ (Nat.pow_dvd_pow 2 (Nat.le_succ k))
  rw [bit,Nat.mod_self] at reduced
  exact reduced.symm

theorem mod_pow_zero (le : k ≤ l) (zero : half % 2^l = 0) : half % 2^k = 0 :=
  Nat.mod_eq_zero_of_dvd (Nat.dvd_trans (Nat.pow_dvd_pow 2 le) (Nat.dvd_of_mod_eq_zero zero))

theorem LowestBit.above (bit : LowestBit k half) (lt : k < l) : half % 2^l ≠ 0 := by
  intro zero
  have lower := mod_pow_zero lt zero
  rw [bit] at lower
  exact Nat.pos_iff_ne_zero.mp (Nat.two_pow_pos k) lower

theorem LowestBit.unique (one : LowestBit k half) (two : LowestBit l half) : k = l := by
  rcases Nat.lt_trichotomy k l with lt | same | gt
  · exact False.elim (one.above lt two.below)
  · exact same
  · exact False.elim (two.above gt one.below)

-- A residue is zero up to the lowest bit, and there only the bit itself is left.
theorem mod_pow_step (zero : half % 2^k = 0) : half % 2^(k+1) = 0 ∨ LowestBit k half := by
  have expand : half % 2^(k+1) = half % 2^k + 2^k * (half / 2^k % 2) := by rw [Nat.pow_succ,Nat.mod_mul]
  rw [zero,Nat.zero_add] at expand
  rcases Nat.mod_two_eq_zero_or_one (half / 2^k) with even | odd
  · exact Or.inl (by rw [expand,even,Nat.mul_zero])
  · exact Or.inr (by unfold LowestBit; rw [expand,odd,Nat.mul_one])

-- The residue that a level tests is made of the parity and the residue of the half.
theorem mod_level : me % (2 <<< level) = me % 2 + 2 * (me / 2 % 2^level) := by
  rw [Nat.shiftLeft_eq,Nat.mod_mul]

theorem wireLoop_complete : wireLoop me left level true = [] := by
  cases left <;> rfl

theorem wireLoop_zero (even : me % 2 = 0) :
    wireLoop me (left+1) 0 false = .server (2 <<< 0) :: wireLoop me left 1 false := by
  have residue : me % (2 <<< 0) = 0 := even
  simp only [wireLoop,Bool.false_eq_true,if_false,even,residue,and_self,if_true,Nat.zero_add]

theorem wireLoop_odd (odd : me % 2 = 1) :
    wireLoop me (left+1) 0 false = .client (2 <<< 0) :: wireLoop me left 1 false := by
  simp [wireLoop,odd]

theorem level_iff {p : Nat} (small : p < 2) : x % (2 <<< l) = p ↔ x % 2 = p ∧ x / 2 % 2^l = 0 := by
  rw [mod_level]
  omega

theorem wireLoop_late : wireLoop me (left+1) (k+1) false =
    if me / 2 % 2^(k+1) = 0 then .server (2 <<< (k+1)) :: wireLoop me left (k+2) false
    else [.client (2 <<< (k+1))] := by
  have evenLevel := level_iff (x := me) (l := k+1) (p := 0) (by omega)
  have oddLevel := level_iff (x := me) (l := k+1) (p := 1) (by omega)
  by_cases server : me / 2 % 2^(k+1) = 0
  · rw [if_pos server]
    by_cases even : me % 2 = 0
    · have residue := evenLevel.mpr ⟨even,server⟩
      simp [wireLoop,even,residue]
    · have odd : me % 2 = 1 := by omega
      have residue := oddLevel.mpr ⟨odd,server⟩
      simp [wireLoop,odd,residue]
  · rw [if_neg server]
    have notEven : ¬ (me % 2 = 0 ∧ me % (2 <<< (k+1)) = 0) := fun both => server (evenLevel.mp both.2).2
    have notOdd : ¬ (0 < k+1 ∧ me % 2 = 1 ∧ me % (2 <<< (k+1)) = 1) := fun all => server (oddLevel.mp all.2.2).2
    simp only [wireLoop,Bool.false_eq_true,if_false,if_neg notEven,if_neg notOdd]
    simp [wireLoop_complete]

theorem aligned_iff {p : Nat} (small : p < stride) : p ≤ x ∧ (x - p) % stride = 0 ↔ x % stride = p := by
  constructor
  · intro ⟨above,aligned⟩
    have back : x = (x - p) + p := by omega
    rw [back,Nat.add_mod,aligned,Nat.zero_add,Nat.mod_mod,Nat.mod_eq_of_lt small]
  · intro residue
    have whole := Nat.div_add_mod x stride
    rw [residue] at whole
    refine ⟨by omega,?_⟩
    have less : x - p = stride * (x / stride) := by omega
    rw [less,Nat.mul_mod_right]

theorem dials_server : dials (wireActions job me (.server stride)) = [] := by
  unfold dials
  rw [List.filterMap_eq_nil_iff]
  intro action member
  obtain ⟨slot,_,found⟩ := List.mem_filterMap.mp member
  obtain ⟨entry,_,made⟩ := Option.bind_eq_some_iff.mp found
  split at made
  · cases made
  · cases made
    rfl

-- A client dials the PEs of its stride that are on other nodes.
theorem dials_client : dials (wireActions job me (.client stride)) =
    (strided job.n stride job.n (clientStart me stride)).filter fun pe => job.node me ≠ job.node pe := by
  unfold dials wireActions
  rw [List.filterMap_filterMap,← List.filterMap_eq_filter]
  refine List.filterMap_congr ?_
  intro pe member
  have inside : pe < job.n := strided_lt member
  obtain ⟨entry,found,near,_⟩ := job.map_eq me inside
  simp only [found,Option.bind_some]
  by_cases same : job.node me = job.node pe
  · simp [near.mpr same,same,Option.guard]
  · have remote : entry.type ≠ .near := fun type => same (near.mp type)
    simp [remote,same,Action.dialed]

theorem mem_dials_client (positive : 0 < stride) (inside : b < job.n) :
    b ∈ dials (wireActions job me (.client stride)) ↔ job.node me ≠ job.node b ∧
      clientStart me stride ≤ b ∧ (b - clientStart me stride) % stride = 0 := by
  rw [dials_client,List.mem_filter,mem_strided positive (Nat.le_add_left _ _)]
  simp only [inside,true_and,decide_eq_true_eq]
  exact And.comm

theorem dials_client_nodup (positive : 0 < stride) : (dials (wireActions job me (.client stride))).Nodup := by
  rw [dials_client]
  exact (strided_nodup positive).filter _

theorem stride_positive : 0 < 2 <<< l := by
  rw [Nat.shiftLeft_eq]
  exact Nat.mul_pos Nat.two_pos (Nat.two_pow_pos l)

def wireDials (job : Job) (me : Nat) (calls : List WireCall) : List Nat := dials (calls.flatMap (wireActions job me))

theorem wireDials_cons : wireDials job me (call :: calls) =
    dials (wireActions job me call) ++ wireDials job me calls := by
  simp [wireDials,dials]

-- From level 1 on: servers up to the lowest bit of the half, then one client call.
theorem late_dials (left : Nat) (reached : me / 2 % 2^k = 0) (inside : b < job.n) :
    (b ∈ wireDials job me (wireLoop me left (k+1) false) ↔ job.node me ≠ job.node b ∧ b % 2 = me % 2 ∧
      ∃ j, k ≤ j ∧ j < k + left ∧ LowestBit j (me / 2) ∧ b / 2 % 2^(j+1) = 0) ∧
    (wireDials job me (wireLoop me left (k+1) false)).Nodup := by
  induction left generalizing k with
  | zero =>
    refine ⟨⟨fun member => ?_,fun ⟨_,_,j,low,high,_⟩ => ?_⟩,List.nodup_nil⟩
    · cases member
    · omega
  | succ left ih =>
    rw [wireLoop_late]
    by_cases server : me / 2 % 2^(k+1) = 0
    · obtain ⟨member,once⟩ := ih server
      rw [if_pos server,wireDials_cons,dials_server,List.nil_append]
      refine ⟨member.trans ⟨?_,?_⟩,once⟩
      · intro ⟨other,parity,j,low,high,rest⟩
        exact ⟨other,parity,j,by omega,by omega,rest⟩
      · intro ⟨other,parity,j,low,high,bit,residue⟩
        refine ⟨other,parity,j,?_,by omega,bit,residue⟩
        by_cases here : j = k
        · subst j
          exact False.elim (bit.above (Nat.lt_succ_self k) server)
        · omega
    · have bit := (mod_pow_step reached).resolve_left server
      have start : clientStart me (2 <<< (k+1)) = me % 2 := by
        have wide : 2 < 2 <<< (k+1) := by
          have power := Nat.one_lt_two_pow (Nat.succ_ne_zero k)
          rw [Nat.shiftLeft_eq]
          omega
        unfold clientStart
        by_cases odd : me % 2 = 1
        · rw [if_pos ⟨wide,odd⟩,odd]
        · rw [if_neg (fun both => odd both.2)]
          omega
      have small : me % 2 < 2 <<< (k+1) :=
        Nat.lt_of_lt_of_le (Nat.mod_lt _ Nat.two_pos) (by rw [Nat.shiftLeft_eq]; exact Nat.le_mul_of_pos_right 2 (Nat.two_pow_pos _))
      rw [if_neg server,wireDials_cons]
      have nothing : wireDials job me [] = [] := rfl
      rw [nothing,List.append_nil]
      refine ⟨?_,dials_client_nodup stride_positive⟩
      rw [mem_dials_client stride_positive inside,start,aligned_iff small,level_iff (Nat.mod_lt _ Nat.two_pos)]
      constructor
      · intro ⟨other,parity,residue⟩
        exact ⟨other,parity,k,Nat.le_refl k,by omega,bit,residue⟩
      · intro ⟨other,parity,j,_,_,also,residue⟩
        have same := bit.unique also
        subst j
        exact ⟨other,parity,residue⟩

-- Which PEs call which: odd ones call even ones at level 0, and of two PEs of one parity
-- the one whose half has its lowest bit where the other's half has none so far.
def Calls (a b : Nat) : Prop :=
  (a % 2 = 1 ∧ b % 2 = 0) ∨ (b % 2 = a % 2 ∧ ∃ k, LowestBit k (a / 2) ∧ b / 2 % 2^(k+1) = 0)

theorem lowestBit_level (bit : LowestBit k (a / 2)) (inside : a < n) : k + 1 < Nat.clog 2 n := by
  have least : 2^k ≤ a / 2 := by
    rw [← bit]
    exact Nat.mod_le _ _
  have power : 2^(k+1) ≤ a := by
    rw [Nat.pow_succ]
    omega
  have top := Nat.le_pow_clog Nat.one_lt_two n
  exact (Nat.pow_lt_pow_iff_right Nat.one_lt_two).mp (Nat.lt_of_le_of_lt power (Nat.lt_of_lt_of_le inside top))

theorem program_dials (here : a < job.n) (there : b < job.n) :
    (b ∈ dials (wireProgram job a) ↔ job.node a ≠ job.node b ∧ Calls a b) ∧ (dials (wireProgram job a)).Nodup := by
  have program : dials (wireProgram job a) = wireDials job a (commRemoteWireup a job.n) := rfl
  have whole : a / 2 % 2^0 = 0 := Nat.mod_one _
  rw [program]
  unfold commRemoteWireup Calls
  cases levels : Nat.clog 2 job.n with
  | zero =>
    have one : job.n ≤ 1 := by
      have top := Nat.le_pow_clog Nat.one_lt_two job.n
      rw [levels] at top
      exact top
    have same : a = b := by omega
    subst same
    refine ⟨⟨fun member => ?_,fun both => False.elim (both.1 rfl)⟩,List.nodup_nil⟩
    cases member
  | succ left =>
    obtain ⟨late,once⟩ := late_dials left whole there
    have bounded : ∀ k, LowestBit k (a / 2) → k < 0 + left := by
      intro k bit
      have level := lowestBit_level bit here
      omega
    have later : b ∈ wireDials job a (wireLoop a left 1 false) ↔ job.node a ≠ job.node b ∧
        b % 2 = a % 2 ∧ ∃ k, LowestBit k (a / 2) ∧ b / 2 % 2^(k+1) = 0 := by
      refine late.trans ⟨?_,?_⟩
      · intro ⟨other,parity,k,_,_,rest⟩
        exact ⟨other,parity,k,rest⟩
      · intro ⟨other,parity,k,bit,residue⟩
        exact ⟨other,parity,k,Nat.zero_le _,bounded k bit,bit,residue⟩
    by_cases even : a % 2 = 0
    · rw [wireLoop_zero even,wireDials_cons,dials_server,List.nil_append]
      refine ⟨later.trans ⟨?_,?_⟩,once⟩
      · intro ⟨other,rest⟩
        exact ⟨other,Or.inr rest⟩
      · intro ⟨other,either⟩
        rcases either with ⟨odd,_⟩ | rest
        · omega
        · exact ⟨other,rest⟩
    · have odd : a % 2 = 1 := by omega
      have start : clientStart a (2 <<< 0) = 0 := rfl
      have first : ∀ c < job.n, c ∈ dials (wireActions job a (.client (2 <<< 0))) ↔
          job.node a ≠ job.node c ∧ c % 2 = 0 := by
        intro c inside
        rw [mem_dials_client stride_positive inside,start]
        simp
      rw [wireLoop_odd odd,wireDials_cons,List.mem_append,first b there,later]
      refine ⟨⟨?_,?_⟩,List.nodup_append.mpr ⟨dials_client_nodup stride_positive,once,?_⟩⟩
      · intro either
        rcases either with ⟨other,even⟩ | ⟨other,rest⟩
        · exact ⟨other,Or.inl ⟨odd,even⟩⟩
        · exact ⟨other,Or.inr rest⟩
      · intro ⟨other,either⟩
        rcases either with ⟨_,even⟩ | rest
        · exact Or.inl ⟨other,even⟩
        · exact Or.inr ⟨other,rest⟩
      · intro c member d also same
        subst d
        have inside : c < job.n := by
          rw [dials_client] at member
          exact strided_lt (List.mem_filter.mp member).1
        have parity := ((first c inside).mp member).2
        have parity' := ((late_dials left whole inside).1.mp also).2.1
        omega

-- Two PEs of one parity, neither of them 0 or 1, whose halves have the same lowest bit.
def Clash (a b : Nat) : Prop := a ≠ b ∧ a % 2 = b % 2 ∧ ∃ k, LowestBit k (a / 2) ∧ LowestBit k (b / 2)

theorem LowestBit.lt (bit : LowestBit k half) : k < half :=
  Nat.lt_of_lt_of_le Nat.lt_two_pow_self (bit ▸ Nat.mod_le half _)

instance (a b : Nat) : Decidable (Clash a b) :=
  have bounded : (∃ k < a / 2, a / 2 % 2^(k+1) = 2^k ∧ b / 2 % 2^(k+1) = 2^k) ↔ ∃ k, LowestBit k (a / 2) ∧ LowestBit k (b / 2) :=
    ⟨fun ⟨k,_,both⟩ => ⟨k,both⟩,fun ⟨k,bit,also⟩ => ⟨k,bit.lt,bit,also⟩⟩
  decidable_of_iff (a ≠ b ∧ a % 2 = b % 2 ∧ _) (and_congr_right fun _ => and_congr_right fun _ => bounded)

theorem calls_once : ¬ (Calls a b ∧ Calls b a) := by
  intro ⟨one,two⟩
  rcases one with ⟨odd,even⟩ | ⟨parity,k,bit,residue⟩
  · rcases two with ⟨odd',_⟩ | ⟨parity,_⟩ <;> omega
  · rcases two with ⟨odd,even⟩ | ⟨_,l,bit',residue'⟩
    · omega
    · rcases Nat.lt_or_ge k l with lt | ge
      · exact bit.above (Nat.lt_succ_of_lt lt) residue'
      · exact bit'.above (Nat.lt_succ_of_le ge) residue

-- Exactly the clashing pairs never call each other.
theorem calls_iff (different : a ≠ b) : Calls a b ∨ Calls b a ↔ ¬ Clash a b := by
  constructor
  · intro either ⟨_,parity,k,bit,bit'⟩
    rcases either with call | call
    · rcases call with ⟨odd,even⟩ | ⟨_,l,also,residue⟩
      · omega
      · have same := bit.unique also
        subst l
        exact bit'.above (Nat.lt_succ_self k) residue
    · rcases call with ⟨odd,even⟩ | ⟨_,l,also,residue⟩
      · omega
      · have same := bit'.unique also
        subst l
        exact bit.above (Nat.lt_succ_self k) residue
  · intro apart
    by_cases parity : a % 2 = b % 2
    · by_cases first : a / 2 = 0
      · have second : 0 < b / 2 := by omega
        obtain ⟨k,bit⟩ := lowestBit_exists second
        exact Or.inr (Or.inr ⟨parity,k,bit,by rw [first,Nat.zero_mod]⟩)
      by_cases second : b / 2 = 0
      · obtain ⟨k,bit⟩ := lowestBit_exists (Nat.pos_of_ne_zero first)
        exact Or.inl (Or.inr ⟨parity.symm,k,bit,by rw [second,Nat.zero_mod]⟩)
      obtain ⟨k,bit⟩ := lowestBit_exists (Nat.pos_of_ne_zero first)
      obtain ⟨l,bit'⟩ := lowestBit_exists (Nat.pos_of_ne_zero second)
      rcases Nat.lt_trichotomy k l with lt | same | gt
      · exact Or.inl (Or.inr ⟨parity.symm,k,bit,mod_pow_zero lt bit'.below⟩)
      · subst l
        exact False.elim (apart ⟨different,parity,k,bit,bit'⟩)
      · exact Or.inr (Or.inr ⟨parity,l,bit',mod_pow_zero gt bit.below⟩)
    · by_cases odd : a % 2 = 1
      · exact Or.inl (Or.inl ⟨odd,by omega⟩)
      · exact Or.inr (Or.inl ⟨by omega,by omega⟩)

end OpenShmem
