import Mathlib.Algebra.Group.Nat.Defs
import Mathlib.Data.List.Nodup
import Mathlib.Logic.Function.Basic

namespace OpenShmem

def sharedMemoryPrefix : String := "dwl2x"

def sharedMemKeyInt (identifier : Nat) : String := sharedMemoryPrefix ++ "-shmem-" ++ toString identifier

def mapFailed : BitVec 64 := -1

-- shm_open is none for -1, and mmap is mapFailed for MAP_FAILED.
structure SharedObjects where
  shmOpen : String → Option Nat
  mmap : String → Nat → BitVec 64

-- It compares the pointer that it was given with MAP_FAILED, not what mmap returned.
def sharedMemMap (objects : SharedObjects) (key : String) (size : Nat) (region : BitVec 64) : Int × BitVec 64 :=
  (if region = mapFailed then -1 else 0,objects.mmap key size)

structure Opened where
  result : Int
  stored : Option (BitVec 64)
  messages : List String

def sharedMemOpen (objects : SharedObjects) (key : String) (size : Nat) (region : BitVec 64) : Opened :=
  match objects.shmOpen key with
  | none => ⟨-1,none,["Open shared memory failed\n"]⟩
  | some fd =>
    let (status,address) := sharedMemMap objects key size region
    if status = -1 then ⟨-1,some address,["Failed to map memory object\n"]⟩
    else ⟨fd,some address,[]⟩

def symmetricHeapSize : Nat := 2 <<< 25

-- `array` is where malloc places __shared_memory.
structure LocalPes where
  n : Nat
  me : Nat
  heap : BitVec 64
  array : Nat
  inside : me < n
  fits : array + 8 * n ≤ 2^64

def LocalPes.slot (pes : LocalPes) (i : Nat) : BitVec 64 := BitVec.ofNat 64 (pes.array + 8 * i)

-- __shared_memory, whose entries are not initialised, and whether the loop was left early.
structure LocalMappings where
  slots : Nat → Option (BitVec 64)
  messages : List String
  stopped : Bool

-- The descriptor 0 counts as a failure, and -1 does not.
def localWireLoop (objects : SharedObjects) (pes : LocalPes) : List Nat → LocalMappings → LocalMappings
  | [],m => m
  | i :: rest,m =>
    if i = pes.me then localWireLoop objects pes rest m
    else
      let opened := sharedMemOpen objects (sharedMemKeyInt i) symmetricHeapSize (pes.slot i)
      let m := {m with
        slots := match opened.stored with
          | none => m.slots
          | some address => Function.update m.slots i (some address)
        messages := m.messages ++ opened.messages}
      if opened.result = 0 then {m with messages := m.messages ++ ["Failed to open shared memory"], stopped := true}
      else localWireLoop objects pes rest m

def LocalPes.unmapped (pes : LocalPes) : LocalMappings := ⟨Function.update (fun _ => none) pes.me (some pes.heap),[],false⟩

def commLocalWireup (objects : SharedObjects) (pes : LocalPes) : LocalMappings :=
  localWireLoop objects pes (List.range pes.n) pes.unmapped

def SharedObjects.descriptor (objects : SharedObjects) (i : Nat) : Option Nat := objects.shmOpen (sharedMemKeyInt i)
def SharedObjects.address (objects : SharedObjects) (i : Nat) : BitVec 64 := objects.mmap (sharedMemKeyInt i) symmetricHeapSize

-- The report of a failure is a message of comm_local_wireup, or also of what it calls.
inductive Report where
  | own
  | any

def LocalMappings.reports (m : LocalMappings) : Report → Prop
  | .own => m.stopped = true
  | .any => m.messages ≠ []

def Attached (objects : SharedObjects) (i : Nat) : Prop := objects.descriptor i ≠ none ∧ objects.address i ≠ mapFailed

-- comm_local_wireup comes to its end without a report just when every call succeeded, and
-- then every other PE's slot has the address of its heap.
def Detects (report : Report) (objects : SharedObjects) (pes : LocalPes) : Prop :=
  (¬ (commLocalWireup objects pes).reports report ↔ ∀ i < pes.n, i ≠ pes.me → Attached objects i) ∧
    (¬ (commLocalWireup objects pes).reports report →
      ∀ i < pes.n, i ≠ pes.me → (commLocalWireup objects pes).slots i = some (objects.address i))

def Report.raised : Report → Option Nat → Prop
  | .own,descriptor => descriptor = some 0
  | .any,descriptor => descriptor = some 0 ∨ descriptor = none

-- All calls for the other PEs succeed with positive descriptors; or one of them fails, and
-- one of the descriptors, not always the same one's, raises a report.
def Told (report : Report) (objects : SharedObjects) (pes : LocalPes) : Prop :=
  (∀ i < pes.n, i ≠ pes.me → ¬ report.raised (objects.descriptor i) ∧ Attached objects i) ∨
    (∃ i < pes.n, i ≠ pes.me ∧ report.raised (objects.descriptor i)) ∧ ∃ i < pes.n, i ≠ pes.me ∧ ¬ Attached objects i

variable {objects : SharedObjects} {pes : LocalPes} {m : LocalMappings} {todo : List Nat} {i j : Nat}

-- A slot of the array does not lie at the address -1: its eight bytes end before it.
theorem slot_mapped (inside : i < pes.n) : pes.slot i ≠ mapFailed := by
  intro same
  have fits := pes.fits
  have value : (pes.array + 8 * i) % 2^64 = 2^64 - 1 := by
    have read := congrArg BitVec.toNat same
    simpa [LocalPes.slot,mapFailed] using read
  omega

theorem sharedMemOpen_slot (inside : i < pes.n) (key : String) (size : Nat) :
    sharedMemOpen objects key size (pes.slot i) = match objects.shmOpen key with
      | none => ⟨-1,none,["Open shared memory failed\n"]⟩
      | some fd => ⟨fd,some (objects.mmap key size),[]⟩ := by
  unfold sharedMemOpen sharedMemMap
  cases objects.shmOpen key with
  | none => rfl
  | some fd => simp [slot_mapped inside]

theorem localWireLoop_failed (inside : i < pes.n) (other : i ≠ pes.me) (failed : objects.descriptor i = none) :
    localWireLoop objects pes (i :: todo) m =
      localWireLoop objects pes todo {m with messages := m.messages ++ ["Open shared memory failed\n"]} := by
  unfold SharedObjects.descriptor at failed
  simp [localWireLoop,other,sharedMemOpen_slot inside,failed]

theorem localWireLoop_zero (inside : i < pes.n) (other : i ≠ pes.me) (opened : objects.descriptor i = some 0) :
    localWireLoop objects pes (i :: todo) m = {m with
      slots := Function.update m.slots i (some (objects.address i))
      messages := m.messages ++ ["Failed to open shared memory"]
      stopped := true} := by
  unfold SharedObjects.descriptor at opened
  simp [localWireLoop,other,sharedMemOpen_slot inside,opened,SharedObjects.address]

theorem localWireLoop_opened (inside : i < pes.n) (other : i ≠ pes.me) (opened : objects.descriptor i = some fd) (positive : 0 < fd) :
    localWireLoop objects pes (i :: todo) m =
      localWireLoop objects pes todo {m with slots := Function.update m.slots i (some (objects.address i))} := by
  unfold SharedObjects.descriptor at opened
  have nonzero : fd ≠ 0 := Nat.ne_of_gt positive
  simp [localWireLoop,other,sharedMemOpen_slot inside,opened,SharedObjects.address,nonzero]

theorem localWireLoop_other (inside : ∀ i ∈ todo, i < pes.n) (notListed : j ∉ todo) :
    (localWireLoop objects pes todo m).slots j = m.slots j := by
  induction todo generalizing m with
  | nil => rfl
  | cons i todo ih =>
    obtain ⟨here,later⟩ := List.forall_mem_cons.mp inside
    simp only [List.mem_cons,not_or] at notListed
    obtain ⟨apart,rest⟩ := notListed
    by_cases own : i = pes.me
    · simp only [localWireLoop,own,if_true]
      exact ih later rest
    · cases opened : objects.descriptor i with
      | none => rw [localWireLoop_failed here own opened,ih later rest]
      | some fd =>
        cases fd with
        | zero => simp [localWireLoop_zero here own opened,apart]
        | succ fd => simp [localWireLoop_opened here own opened (Nat.succ_pos fd),ih later rest,apart]

theorem localWireLoop_stops (inside : ∀ i ∈ todo, i < pes.n) (zero : ∃ i ∈ todo, i ≠ pes.me ∧ objects.descriptor i = some 0) :
    (localWireLoop objects pes todo m).stopped = true ∧ (localWireLoop objects pes todo m).messages ≠ [] := by
  induction todo generalizing m with
  | nil =>
    obtain ⟨_,member,_⟩ := zero
    cases member
  | cons i todo ih =>
    obtain ⟨here,later⟩ := List.forall_mem_cons.mp inside
    obtain ⟨k,member,other,stops⟩ := zero
    by_cases own : i = pes.me
    · have rest := (List.mem_cons.mp member).resolve_left fun same => other (same.trans own)
      simp only [localWireLoop,own,if_true]
      exact ih later ⟨k,rest,other,stops⟩
    · cases opened : objects.descriptor i with
      | none =>
        have rest := (List.mem_cons.mp member).resolve_left fun same => by rw [same,opened] at stops; cases stops
        rw [localWireLoop_failed here own opened]
        exact ih later ⟨k,rest,other,stops⟩
      | some fd =>
        cases fd with
        | zero => simp [localWireLoop_zero here own opened]
        | succ fd =>
          have rest := (List.mem_cons.mp member).resolve_left fun same => by rw [same,opened] at stops; cases stops
          rw [localWireLoop_opened here own opened (Nat.succ_pos fd)]
          exact ih later ⟨k,rest,other,stops⟩

theorem localWireLoop_ends (inside : ∀ i ∈ todo, i < pes.n) (once : todo.Nodup)
    (nonzero : ∀ i ∈ todo, i ≠ pes.me → objects.descriptor i ≠ some 0) :
    (localWireLoop objects pes todo m).stopped = m.stopped ∧
      ((localWireLoop objects pes todo m).messages = [] ↔ m.messages = [] ∧ ∀ i ∈ todo, i ≠ pes.me → objects.descriptor i ≠ none) ∧
      ∀ i ∈ todo, i ≠ pes.me → objects.descriptor i ≠ none → (localWireLoop objects pes todo m).slots i = some (objects.address i) := by
  induction todo generalizing m with
  | nil => simp [localWireLoop]
  | cons i todo ih =>
    obtain ⟨here,later⟩ := List.forall_mem_cons.mp inside
    obtain ⟨first,rest⟩ := List.forall_mem_cons.mp nonzero
    obtain ⟨fresh,once⟩ := List.nodup_cons.mp once
    by_cases own : i = pes.me
    · obtain ⟨stopped,messages,slots⟩ := ih (m := m) later once rest
      simp only [localWireLoop,own,if_true,List.forall_mem_cons,ne_eq,not_true_eq_false,false_implies,true_and]
      exact ⟨stopped,messages,slots⟩
    · cases opened : objects.descriptor i with
      | none =>
        rw [localWireLoop_failed here own opened]
        obtain ⟨stopped,messages,slots⟩ := ih (m := {m with messages := m.messages ++ ["Open shared memory failed\n"]}) later once rest
        refine ⟨stopped,?_,?_⟩
        · simp [messages,own,opened]
        · simpa [own,opened] using slots
      | some fd =>
        have positive : 0 < fd := by
          refine Nat.pos_of_ne_zero ?_
          rintro rfl
          exact first own opened
        rw [localWireLoop_opened here own opened positive]
        obtain ⟨stopped,messages,slots⟩ := ih (m := {m with slots := Function.update m.slots i (some (objects.address i))}) later once rest
        refine ⟨stopped,?_,?_⟩
        · simp [messages,opened]
        · refine List.forall_mem_cons.mpr ⟨fun _ _ => ?_,slots⟩
          rw [localWireLoop_other later fresh]
          simp

theorem reports_iff (report : Report) : (commLocalWireup objects pes).reports report ↔
    ∃ i < pes.n, i ≠ pes.me ∧ report.raised (objects.descriptor i) := by
  have inside : ∀ i ∈ List.range pes.n, i < pes.n := fun i member => List.mem_range.mp member
  by_cases zero : ∃ i ∈ List.range pes.n, i ≠ pes.me ∧ objects.descriptor i = some 0
  · obtain ⟨stopped,messages⟩ := localWireLoop_stops inside zero
    obtain ⟨i,member,other,opened⟩ := zero
    have raised : ∃ i < pes.n, i ≠ pes.me ∧ report.raised (objects.descriptor i) := by
      refine ⟨i,inside i member,other,?_⟩
      cases report with
      | own => exact opened
      | any => exact Or.inl opened
    refine ⟨fun _ => raised,fun _ => ?_⟩
    cases report with
    | own => exact stopped
    | any => exact messages
  · have nonzero : ∀ i ∈ List.range pes.n, i ≠ pes.me → objects.descriptor i ≠ some 0 :=
      fun i member other opened => zero ⟨i,member,other,opened⟩
    obtain ⟨stopped,messages,_⟩ := localWireLoop_ends (m := pes.unmapped) inside List.nodup_range nonzero
    cases report with
    | own =>
      constructor
      · intro reported
        exact absurd (stopped.symm.trans reported) Bool.false_ne_true
      · intro ⟨i,here,other,opened⟩
        exact absurd opened (nonzero i (List.mem_range.mpr here) other)
    | any =>
      constructor
      · intro reported
        by_contra none
        refine reported (messages.mpr ⟨rfl,fun i member other missing => none ⟨i,inside i member,other,Or.inr missing⟩⟩)
      · intro ⟨i,here,other,raised⟩ quiet
        rcases raised with opened | missing
        · exact nonzero i (List.mem_range.mpr here) other opened
        · exact (messages.mp quiet).2 i (List.mem_range.mpr here) other missing

theorem unreported_slots (attached : ∀ i < pes.n, i ≠ pes.me → Attached objects i)
    (quiet : ∀ i < pes.n, i ≠ pes.me → objects.descriptor i ≠ some 0) (here : i < pes.n) (other : i ≠ pes.me) :
    (commLocalWireup objects pes).slots i = some (objects.address i) := by
  have inside : ∀ i ∈ List.range pes.n, i < pes.n := fun i member => List.mem_range.mp member
  obtain ⟨_,_,slots⟩ := localWireLoop_ends (m := pes.unmapped) inside List.nodup_range
    fun i member other => quiet i (inside i member) other
  exact slots i (List.mem_range.mpr here) other (attached i here other).1

theorem Report.zero_raised (report : Report) : report.raised (some 0) := by
  cases report with
  | own => rfl
  | any => exact Or.inl rfl

theorem local_wireup_detects_iff (report : Report) (objects : SharedObjects) (pes : LocalPes) :
    Detects report objects pes ↔ Told report objects pes := by
  have silent : ¬ (commLocalWireup objects pes).reports report ↔
      ∀ i < pes.n, i ≠ pes.me → ¬ report.raised (objects.descriptor i) := by
    rw [reports_iff]
    constructor
    · intro none i here other raised
      exact none ⟨i,here,other,raised⟩
    · intro none ⟨i,here,other,raised⟩
      exact none i here other raised
  constructor
  · intro ⟨exact,_⟩
    by_cases attached : ∀ i < pes.n, i ≠ pes.me → Attached objects i
    · have quiet := silent.mp (exact.mpr attached)
      exact Or.inl fun i here other => ⟨quiet i here other,attached i here other⟩
    · have reported := not_not.mp fun none => attached (exact.mp none)
      simp only [not_forall] at attached
      obtain ⟨i,here,other,failed⟩ := attached
      exact Or.inr ⟨(reports_iff report).mp reported,i,here,other,failed⟩
  · intro told
    rcases told with well | ⟨raised,i,here,other,failed⟩
    · have quiet := silent.mpr fun i here other => (well i here other).1
      refine ⟨⟨fun _ i here other => (well i here other).2,fun _ => quiet⟩,?_⟩
      intro _ i here other
      refine unreported_slots (fun k inside apart => (well k inside apart).2) ?_ here other
      intro k inside apart zero
      exact (well k inside apart).1 (zero ▸ report.zero_raised)
    · have reported := (reports_iff report).mpr raised
      refine ⟨⟨fun none => absurd reported none,fun attached => absurd (attached i here other) failed⟩,?_⟩
      intro none
      exact absurd reported none

-- A failure of mmap for the only other PE is not reported.
theorem failed_mapping_unreported : ¬ ∃ report, ∀ objects pes, Detects report objects pes := by
  intro ⟨report,claim⟩
  let objects : SharedObjects := ⟨fun _ => some 3,fun _ _ => mapFailed⟩
  let pes : LocalPes := ⟨2,0,4096,65536,by decide,by decide⟩
  have silent : ¬ (commLocalWireup objects pes).reports report := by
    cases report with
    | own => exact Bool.false_ne_true
    | any => exact not_not.mpr rfl
  have attached := (claim objects pes).1.mp silent 1 (by decide) (by decide)
  exact attached.2 rfl

end OpenShmem
