import OpenShmem.Comm.LocalWireup
import OpenShmem.Comm.Placement
import OpenShmem.Library.ByteMemory
import OpenShmem.Library.Machine
import OpenShmem.Library.Totals
import Mathlib.Data.Finset.Max

namespace OpenShmem
open ByteMemory (memcpy replay read)

-- A shared memory object. It grows with zeros.
structure ShmObject where
  size : Nat
  bytes : Nat → UInt8

def ShmObject.ftruncate (object : ShmObject) (size : Nat) : ShmObject :=
  ⟨size,fun a => if a < object.size then object.bytes a else 0⟩

def ShmObject.memset (object : ShmObject) (size : Nat) : ShmObject :=
  {object with bytes := fun a => if a < size then 0 else object.bytes a}

-- Where a PE is in shmem_init, as far as the other PEs of its node can tell: the steps of
-- shared_mem_create, the first rte_barrier_all, the loop of comm_local_wireup, the memset of
-- __pSync, and the second rte_barrier_all.
inductive Startup where
  | opening
  | truncating
  | zeroing
  | created
  | wiring (i : Nat)
  | clearing
  | wired
  | running
deriving DecidableEq, Repr

def Startup.rank : Startup → Nat
  | .opening => 0
  | .truncating => 1
  | .zeroing => 2
  | .created => 3
  | .wiring _ => 4
  | .clearing => 5
  | .wired => 6
  | .running => 7

-- The object that the own heap is a mapping of, and those that the entries of
-- __shared_memory are.
structure LocalPe where
  stage : Startup
  heap : Option Nat
  slots : Nat → Option Nat

-- A node: the system's names and objects, `made` of which were made, and the processes by
-- their local ranks. `puts` is a ghost: the PE, offset and bytes of each comm_local_put.
structure NodeMemory where
  names : String → Option Nat
  objects : Nat → ShmObject
  made : Nat
  pes : Nat → LocalPe
  puts : List (Nat × Nat × List UInt8)

-- The number of local PEs, their locality map, what rte_my_local_pe answers on each PE, and
-- the bytes of __pSync, which the first heap_malloc puts at the start of the heap.
structure NodeJob where
  n : Nat
  localityMap : LocalityMap
  localRank : Nat → Nat
  indexed : ∀ pe entry, localityMap pe = some entry → entry.type = .near → entry.index < n
  pSync : Nat
  fits : pSync ≤ symmetricHeapSize

-- The runtime numbers the local PEs in the order of the host's list.
def NodeJob.Ranked (job : NodeJob) : Prop :=
  ∀ pe entry, job.localityMap pe = some entry → entry.type = .near → entry.index = job.localRank pe

-- comm_node_map_locality gives such a map.
def Placement.nodeJob (p : Placement) (localRank : Nat → Nat) (pSync : Nat) (fits : pSync ≤ symmetricHeapSize) : NodeJob where
  n := p.nLocal
  localityMap := p.localityMap
  localRank := localRank
  indexed := by
    intro pe entry found near
    obtain ⟨member,index⟩ := Placement.entry_index found
    rw [near] at member index
    rw [index]
    exact List.idxOf_lt_length_of_mem member
  pSync := pSync
  fits := fits

-- What the system calls of a step give: the descriptor of shm_open, none for -1, and whether
-- ftruncate or mmap works.
structure Outcome where
  fd : Option Nat
  works : Bool
deriving DecidableEq, Repr

inductive NodeEvent where
  | advance (me : Nat) (outcome : Outcome)
  | put (me pe dest : Nat) (bytes : List UInt8)
deriving DecidableEq, Repr

def Outcome.Succeeds (outcome : Outcome) : Prop := (outcome.fd ≠ none ∧ outcome.fd ≠ some 0) ∧ outcome.works = true

instance (outcome : Outcome) : Decidable outcome.Succeeds := inferInstanceAs (Decidable (_ ∧ _))

def NodeEvent.Succeeds : NodeEvent → Prop
  | .advance _ outcome => outcome.Succeeds
  | .put _ _ _ _ => True

instance : (event : NodeEvent) → Decidable event.Succeeds
  | .advance _ outcome => inferInstanceAs (Decidable outcome.Succeeds)
  | .put _ _ _ _ => inferInstanceAs (Decidable True)

namespace NodeMemory

def setPe (s : NodeMemory) (me : Nat) (pe : LocalPe) : NodeMemory := {s with pes := Function.update s.pes me pe}

def setObject (s : NodeMemory) (id : Nat) (object : ShmObject) : NodeMemory :=
  {s with objects := Function.update s.objects id object}

-- memcpy into a mapping of the object.
def copy (s : NodeMemory) (pe id dest : Nat) (bytes : List UInt8) : NodeMemory :=
  {s.setObject id {s.objects id with bytes := memcpy (s.objects id).bytes dest bytes} with puts := s.puts ++ [(pe,dest,bytes)]}

-- shm_open with O_CREAT, where it gives a descriptor.
def shmOpen (s : NodeMemory) (key : String) : NodeMemory × Nat :=
  match s.names key with
  | some id => (s,id)
  | none => ({s with
      names := Function.update s.names key (some s.made)
      objects := Function.update s.objects s.made ⟨0,fun _ => 0⟩
      made := s.made + 1},s.made)

-- One step of a PE through shmem_init. Memory behind the end of an object cannot be written,
-- nor the place MAP_FAILED, which shared_mem_map does not tell from a mapping. Without a
-- descriptor the PE has no heap, which shared_heap_create does return.
def advance (job : NodeJob) (s : NodeMemory) (me : Nat) (outcome : Outcome) : Option NodeMemory :=
  let pe := s.pes me
  match pe.stage with
  | .opening =>
    match outcome.fd with
    | none => some (s.setPe me {pe with stage := .created})
    | some _ =>
      let (s,id) := s.shmOpen (sharedMemKeyInt me)
      some (s.setPe me {pe with stage := .truncating, heap := some id})
  | .truncating => do
    let id ← pe.heap
    let object := s.objects id
    some ((s.setObject id (if outcome.works then object.ftruncate symmetricHeapSize else object)).setPe me
      {pe with stage := .zeroing})
  | .zeroing => do
    let id ← pe.heap
    if outcome.works ∧ symmetricHeapSize ≤ (s.objects id).size then
      some ((s.setObject id ((s.objects id).memset symmetricHeapSize)).setPe me {pe with stage := .created})
    else none
  | .created =>
    if ∀ q < job.n, 3 ≤ (s.pes q).stage.rank then do
      let id ← pe.heap
      some (s.setPe me {pe with stage := .wiring 0, slots := Function.update pe.slots me (some id)})
    else none
  | .wiring i =>
    if i < job.n then
      if i = me then some (s.setPe me {pe with stage := .wiring (i+1)})
      else match outcome.fd with
        | none => some (s.setPe me {pe with stage := .wiring (i+1)})
        | some fd =>
          let (s,id) := s.shmOpen (sharedMemKeyInt i)
          some (s.setPe me {pe with
            stage := if fd = 0 then .clearing else .wiring (i+1)
            slots := Function.update pe.slots i (if outcome.works then some id else none)})
    else some (s.setPe me {pe with stage := .clearing})
  | .clearing => do
    let id ← pe.heap
    if job.pSync ≤ (s.objects id).size then
      some ((s.setObject id ((s.objects id).memset job.pSync)).setPe me {pe with stage := .wired})
    else none
  | .wired =>
    if ∀ q < job.n, 6 ≤ (s.pes q).stage.rank then some (s.setPe me {pe with stage := .running}) else none
  | .running => none

-- What a PE's mapping of a heap shows.
def mapped (job : NodeJob) (s : NodeMemory) (me pe : Nat) : Option (Option Nat) := do
  let entry ← job.localityMap pe
  match entry.type with
  | .near => do
    let id ← (s.pes me).slots entry.index
    return some id
  | .remote => return none

-- comm_local_put; for a remote PE it prints a message.
def commLocalPut (job : NodeJob) (s : NodeMemory) (me pe dest : Nat) (bytes : List UInt8) : Option NodeMemory := do
  match ← s.mapped job me pe with
  | none => some s
  | some id => if dest + bytes.length ≤ (s.objects id).size then some (s.copy pe id dest bytes) else none

-- comm_local_get, with the bytes that it delivers.
def commLocalGet (job : NodeJob) (s : NodeMemory) (me pe src size : Nat) : Option (List UInt8) := do
  match ← s.mapped job me pe with
  | none => some []
  | some id =>
    let object := s.objects id
    if src + size ≤ object.size then some (read object.bytes src size) else none

def step (job : NodeJob) (s : NodeMemory) : NodeEvent → Option NodeMemory
  | .advance me outcome => if me < job.n then s.advance job me outcome else none
  | .put me pe dest bytes =>
    if me < job.n ∧ (s.pes me).stage = .running then s.commLocalPut job me pe dest bytes else none

-- Whatever names and objects earlier runs left on the node.
def start (names : String → Option Nat) (objects : Nat → ShmObject) (made : Nat) : NodeMemory :=
  ⟨names,objects,made,fun _ => ⟨.opening,none,fun _ => none⟩,[]⟩

-- The puts for the PE of this local rank.
def putsTo (job : NodeJob) (s : NodeMemory) (rank : Nat) : List (Nat × List UInt8) :=
  s.puts.filterMap fun put => if job.localRank put.1 = rank then some put.2 else none

end NodeMemory

def nodeMemories (job : NodeJob) : Guarded.Machine NodeMemory NodeEvent := ⟨NodeMemory.step job⟩

section Soundness
variable {job : NodeJob} {s t : NodeMemory} {me p q i j id : Nat} {outcome : Outcome}

theorem Outcome.Succeeds.opened (succeeds : outcome.Succeeds) : ∃ fd, outcome.fd = some fd ∧ fd ≠ 0 ∧ outcome.works = true := by
  obtain ⟨⟨some,nonzero⟩,works⟩ := succeeds
  obtain ⟨fd,opened⟩ := Option.ne_none_iff_exists'.mp some
  refine ⟨fd,opened,?_,works⟩
  rintro rfl
  exact nonzero opened

@[simp] theorem setObject_same (s : NodeMemory) (id : Nat) (object : ShmObject) : (s.setObject id object).objects id = object :=
  Function.update_self _ _ _

theorem setObject_other (other : i ≠ id) (object : ShmObject) : (s.setObject id object).objects i = s.objects i :=
  Function.update_of_ne other _ _

theorem sharedMemKeyInt_inj (same : sharedMemKeyInt i = sharedMemKeyInt j) : i = j := by
  have digits : Nat.toDigits 10 i = Nat.toDigits 10 j := by
    have characters := congrArg String.toList same
    simpa [sharedMemKeyInt,String.toList_append] using characters
  rw [← Nat.ofDigitChars_ten_toDigits (n := i),digits,Nat.ofDigitChars_ten_toDigits]

-- The entries of __shared_memory that a PE has set.
def Maps (me : Nat) : Startup → Nat → Prop
  | .wiring k,i => i = me ∨ i < k
  | .clearing,_ | .wired,_ | .running,_ => True
  | _,_ => False

structure NodeSound (job : NodeJob) (s : NodeMemory) : Prop where
  unique : ∀ k l id, s.names k = some id → s.names l = some id → k = l
  old : ∀ k id, s.names k = some id → id < s.made
  own : ∀ p < job.n, 1 ≤ (s.pes p).stage.rank → ∃ id, (s.pes p).heap = some id ∧ s.names (sharedMemKeyInt p) = some id
  sized : ∀ p < job.n, 2 ≤ (s.pes p).stage.rank → ∀ id, (s.pes p).heap = some id → (s.objects id).size = symmetricHeapSize
  filled : ∀ p < job.n, 3 ≤ (s.pes p).stage.rank → ∀ id, (s.pes p).heap = some id → ∀ a < symmetricHeapSize,
    (s.objects id).bytes a = replay (fun _ => 0) (s.putsTo job p) a
  attached : ∀ p < job.n, ∀ i < job.n, Maps p (s.pes p).stage i → (s.pes p).slots i = (s.pes i).heap
  first : ∀ p < job.n, 4 ≤ (s.pes p).stage.rank → ∀ q < job.n, 3 ≤ (s.pes q).stage.rank
  second : ∀ p < job.n, 7 ≤ (s.pes p).stage.rank → ∀ q < job.n, 6 ≤ (s.pes q).stage.rank
  quiet : s.puts ≠ [] → ∃ p < job.n, 7 ≤ (s.pes p).stage.rank

theorem maps_rank (maps : Maps me stage i) : 4 ≤ stage.rank := by
  cases stage with
  | wiring _ => exact Nat.le_refl _
  | clearing => exact Nat.le_succ _
  | wired => exact Nat.le_add_right 4 2
  | running => exact Nat.le_add_right 4 3
  | opening => exact maps.elim
  | truncating => exact maps.elim
  | zeroing => exact maps.elim
  | created => exact maps.elim

-- Two PEs' heaps are different objects, since their keys are different.
theorem NodeSound.apart (sound : NodeSound job s) (one : p < job.n) (two : q < job.n) (different : p ≠ q)
    (opened : 1 ≤ (s.pes p).stage.rank) (also : 1 ≤ (s.pes q).stage.rank) : (s.pes p).heap ≠ (s.pes q).heap := by
  intro same
  obtain ⟨id,here,named⟩ := sound.own p one opened
  obtain ⟨other,there,named'⟩ := sound.own q two also
  rw [here,there] at same
  cases same
  exact different (sharedMemKeyInt_inj (sound.unique _ _ id named named'))

-- A step of a PE that opened its heap touches that object only.
theorem NodeSound.frame (sound : NodeSound job s) (inside : me < job.n) (pe : LocalPe) (objects : Nat → ShmObject)
    (kept : pe.heap = (s.pes me).heap) (opened : 1 ≤ (s.pes me).stage.rank) (later : (s.pes me).stage.rank ≤ pe.stage.rank)
    (others : ∀ id, (s.pes me).heap ≠ some id → objects id = s.objects id)
    (size : 2 ≤ pe.stage.rank → ∀ id, (s.pes me).heap = some id → (objects id).size = symmetricHeapSize)
    (bytes : 3 ≤ pe.stage.rank → ∀ id, (s.pes me).heap = some id → ∀ a < symmetricHeapSize,
      (objects id).bytes a = replay (fun _ => 0) (s.putsTo job me) a)
    (slots : ∀ i < job.n, Maps me pe.stage i → pe.slots i = (s.pes i).heap)
    (first : 4 ≤ pe.stage.rank → ∀ q < job.n, 3 ≤ (s.pes q).stage.rank)
    (second : 7 ≤ pe.stage.rank → ∀ q < job.n, 6 ≤ (s.pes q).stage.rank) :
    NodeSound job {s with objects := objects, pes := Function.update s.pes me pe} := by
  have heaps : ∀ q, (Function.update s.pes me pe q).heap = (s.pes q).heap := by
    intro q
    by_cases here : q = me
    · rw [here,Function.update_self,kept]
    · rw [Function.update_of_ne here]
  have ranks : ∀ q, (s.pes q).stage.rank ≤ (Function.update s.pes me pe q).stage.rank := by
    intro q
    by_cases here : q = me
    · rw [here,Function.update_self]
      exact later
    · rw [Function.update_of_ne here]
  have untouched : ∀ q < job.n, q ≠ me → 1 ≤ (s.pes q).stage.rank → ∀ id, (s.pes q).heap = some id → objects id = s.objects id := by
    intro q there away also id heap
    refine others id fun mine => ?_
    exact sound.apart there inside away also opened (heap.trans mine.symm)
  refine ⟨sound.unique,sound.old,?_,?_,?_,?_,?_,?_,?_⟩ <;> dsimp only
  · intro q there rank
    by_cases here : q = me
    · subst here
      rw [heaps]
      exact sound.own q there opened
    · rw [heaps]
      rw [Function.update_of_ne here] at rank
      exact sound.own q there rank
  · intro q there rank id heap
    rw [heaps] at heap
    by_cases here : q = me
    · subst here
      rw [Function.update_self] at rank
      exact size rank id heap
    · rw [Function.update_of_ne here] at rank
      rw [untouched q there here (by omega) id heap]
      exact sound.sized q there rank id heap
  · intro q there rank id heap
    rw [heaps] at heap
    by_cases here : q = me
    · subst here
      rw [Function.update_self] at rank
      exact bytes rank id heap
    · rw [Function.update_of_ne here] at rank
      rw [untouched q there here (by omega) id heap]
      exact sound.filled q there rank id heap
  · intro q there i within attached
    rw [heaps]
    by_cases here : q = me
    · subst here
      rw [Function.update_self] at attached ⊢
      exact slots i within attached
    · rw [Function.update_of_ne here] at attached ⊢
      exact sound.attached q there i within attached
  · intro q there rank r within
    refine Nat.le_trans ?_ (ranks r)
    by_cases here : q = me
    · rw [here,Function.update_self] at rank
      exact first rank r within
    · rw [Function.update_of_ne here] at rank
      exact sound.first q there rank r within
  · intro q there rank r within
    refine Nat.le_trans ?_ (ranks r)
    by_cases here : q = me
    · rw [here,Function.update_self] at rank
      exact second rank r within
    · rw [Function.update_of_ne here] at rank
      exact sound.second q there rank r within
  · intro some
    obtain ⟨q,there,rank⟩ := sound.quiet some
    exact ⟨q,there,Nat.le_trans rank (ranks q)⟩

-- Opening a name changes nothing for the names and the objects that are there.
structure Opens (s : NodeMemory) (key : String) (t : NodeMemory) (id : Nat) : Prop where
  named : t.names key = some id
  keeps : ∀ k o, s.names k = some o → t.names k = some o
  unique : ∀ k l o, t.names k = some o → t.names l = some o → k = l
  old : ∀ k o, t.names k = some o → o < t.made
  objects : ∀ o < s.made, t.objects o = s.objects o
  pes : t.pes = s.pes
  puts : t.puts = s.puts

theorem shmOpen_known (named : s.names key = some id) : s.shmOpen key = (s,id) := by
  simp [NodeMemory.shmOpen,named]

theorem shmOpen_opens (unique : ∀ k l o, s.names k = some o → s.names l = some o → k = l)
    (old : ∀ k o, s.names k = some o → o < s.made) (key : String) :
    Opens s key (s.shmOpen key).1 (s.shmOpen key).2 := by
  cases known : s.names key with
  | some id =>
    rw [shmOpen_known known]
    exact ⟨known,fun _ _ same => same,unique,old,fun _ _ => rfl,rfl,rfl⟩
  | none =>
    simp only [NodeMemory.shmOpen,known]
    have names : ∀ k o, Function.update s.names key (some s.made) k = some o ↔ (k = key ∧ o = s.made) ∨ (k ≠ key ∧ s.names k = some o) := by
      intro k o
      by_cases here : k = key
      · simp [here,eq_comm]
      · simp [here]
    refine ⟨by simp,?_,?_,?_,?_,rfl,rfl⟩
    · intro k o same
      refine (names k o).mpr (Or.inr ⟨?_,same⟩)
      rintro rfl
      rw [known] at same
      cases same
    · intro k l o one two
      rcases (names k o).mp one with ⟨rfl,rfl⟩ | ⟨_,one⟩
      · rcases (names l s.made).mp two with ⟨rfl,_⟩ | ⟨_,two⟩
        · rfl
        · exact absurd (old l _ two) (Nat.lt_irrefl _)
      · rcases (names l o).mp two with ⟨_,rfl⟩ | ⟨_,two⟩
        · exact absurd (old k _ one) (Nat.lt_irrefl _)
        · exact unique k l o one two
    · intro k o same
      rcases (names k o).mp same with ⟨_,rfl⟩ | ⟨_,same⟩
      · exact Nat.lt_succ_self _
      · exact Nat.lt_succ_of_lt (old k o same)
    · intro o earlier
      exact Function.update_of_ne (Nat.ne_of_lt earlier) _ _

-- Before the first rte_barrier_all a PE opens its own heap.
theorem NodeSound.opening (sound : NodeSound job s) (inside : me < job.n) (stage : (s.pes me).stage = .opening)
    (opens : Opens s (sharedMemKeyInt me) t id) :
    NodeSound job (t.setPe me {s.pes me with stage := .truncating, heap := some id}) := by
  have none : ∀ q < job.n, ¬ 4 ≤ (s.pes q).stage.rank := by
    intro q there rank
    have mine := sound.first q there rank me inside
    rw [stage] at mine
    exact absurd mine (by decide)
  have before : ∀ q < job.n, 1 ≤ (s.pes q).stage.rank → ∀ o, (s.pes q).heap = some o → t.objects o = s.objects o := by
    intro q there rank o heap
    obtain ⟨known,same,named⟩ := sound.own q there rank
    rw [heap] at same
    cases same
    exact opens.objects o (sound.old _ _ named)
  refine ⟨opens.unique,opens.old,?_,?_,?_,?_,?_,?_,?_⟩ <;> simp only [NodeMemory.setPe,opens.pes,opens.puts]
  · intro q there rank
    by_cases here : q = me
    · subst here
      exact ⟨id,by simp,opens.named⟩
    · rw [Function.update_of_ne here] at rank ⊢
      obtain ⟨o,heap,named⟩ := sound.own q there rank
      exact ⟨o,heap,opens.keeps _ _ named⟩
  · intro q there rank o heap
    by_cases here : q = me
    · subst here
      rw [Function.update_self] at rank
      exact absurd rank (by simp [Startup.rank])
    · rw [Function.update_of_ne here] at rank heap
      rw [before q there (by omega) o heap]
      exact sound.sized q there rank o heap
  · intro q there rank o heap a below
    by_cases here : q = me
    · subst here
      rw [Function.update_self] at rank
      exact absurd rank (by simp [Startup.rank])
    · rw [Function.update_of_ne here] at rank heap
      rw [before q there (by omega) o heap]
      have filled := sound.filled q there rank o heap a below
      unfold NodeMemory.putsTo at filled
      exact filled
  · intro q there i within maps
    by_cases here : q = me
    · subst here
      rw [Function.update_self] at maps
      exact maps.elim
    · rw [Function.update_of_ne here] at maps
      exact absurd (maps_rank maps) (none q there)
  · intro q there rank
    by_cases here : q = me
    · subst here
      rw [Function.update_self] at rank
      exact absurd rank (by simp [Startup.rank])
    · rw [Function.update_of_ne here] at rank
      exact absurd rank (none q there)
  · intro q there rank
    by_cases here : q = me
    · subst here
      rw [Function.update_self] at rank
      exact absurd rank (by simp [Startup.rank])
    · rw [Function.update_of_ne here] at rank
      exact absurd (Nat.le_trans (by decide) rank) (none q there)
  · intro some
    obtain ⟨q,there,rank⟩ := sound.quiet some
    exact absurd (Nat.le_trans (by decide) rank) (none q there)

-- Nobody puts before the second rte_barrier_all.
theorem NodeSound.silent (sound : NodeSound job s) (inside : me < job.n) (early : (s.pes me).stage.rank < 6) : s.puts = [] := by
  by_contra some
  obtain ⟨q,there,rank⟩ := sound.quiet some
  have passed := sound.second q there rank me inside
  omega

theorem NodeSound.blank (sound : NodeSound job s) (inside : me < job.n) (early : (s.pes me).stage.rank < 6) (a : Nat) :
    replay (fun _ => 0) (s.putsTo job me) a = 0 := by
  rw [NodeMemory.putsTo,sound.silent inside early]
  rfl

-- A step that writes into the own object before anyone puts.
theorem NodeSound.fill (sound : NodeSound job s) (inside : me < job.n) (heap : (s.pes me).heap = some id) (object : ShmObject)
    {now : Startup} (stands : (s.pes me).stage = now) (stage : Startup) (opened : 1 ≤ now.rank) (early : now.rank < 6)
    (later : now.rank ≤ stage.rank) (size : object.size = symmetricHeapSize)
    (bytes : 3 ≤ stage.rank → ∀ a < symmetricHeapSize, object.bytes a = 0)
    (maps : ∀ i, Maps me stage i → Maps me now i) (first : 4 ≤ stage.rank → 4 ≤ now.rank)
    (last : stage.rank < 7) : NodeSound job ((s.setObject id object).setPe me {s.pes me with stage := stage}) := by
  subst now
  refine sound.frame inside _ _ rfl opened later ?_ ?_ ?_ ?_ ?_ ?_
  · intro o other
    refine setObject_other ?_ object
    rintro rfl
    exact other heap
  · intro _ o mine
    rw [heap] at mine
    cases mine
    rw [setObject_same]
    exact size
  · intro rank o mine a below
    rw [heap] at mine
    cases mine
    rw [setObject_same,sound.blank inside early]
    exact bytes rank a below
  · exact fun i within there => sound.attached me inside i within (maps i there)
  · exact fun rank => sound.first me inside (first rank)
  · exact fun rank => absurd rank (Nat.not_le.mpr last)

-- A step that changes no object.
theorem NodeSound.move (sound : NodeSound job s) (inside : me < job.n) {now : Startup} (stands : (s.pes me).stage = now)
    (stage : Startup) (slots : Nat → Option Nat) (ready : 3 ≤ now.rank) (later : now.rank ≤ stage.rank)
    (maps : ∀ i < job.n, Maps me stage i → slots i = (s.pes i).heap)
    (first : ∀ q < job.n, 3 ≤ (s.pes q).stage.rank) (second : 7 ≤ stage.rank → ∀ q < job.n, 6 ≤ (s.pes q).stage.rank) :
    NodeSound job (s.setPe me {s.pes me with stage := stage, slots := slots}) := by
  subst now
  exact sound.frame inside _ _ rfl (Nat.le_trans (by decide) ready) later (fun _ _ => rfl)
    (fun _ => sound.sized me inside (Nat.le_trans (by decide) ready)) (fun _ => sound.filled me inside ready) maps (fun _ => first) second

-- A round of the loop of comm_local_wireup maps the next PE's heap, which shm_open finds under its name.
theorem NodeSound.wire (sound : NodeSound job s) (inside : me < job.n) {k : Nat} (stage : (s.pes me).stage = .wiring k)
    (succeeds : outcome.Succeeds) (moved : s.advance job me outcome = some t) : NodeSound job t := by
  obtain ⟨fd,opened,nonzero,works⟩ := succeeds.opened
  unfold NodeMemory.advance at moved
  simp only [stage] at moved
  have first := sound.first me inside (by rw [stage]; exact Nat.le_refl 4)
  have known : ∀ i < job.n, i = me ∨ i < k → (s.pes me).slots i = (s.pes i).heap := by
    intro i there maps
    refine sound.attached me inside i there ?_
    rw [stage]
    exact maps
  split at moved
  · rename_i within
    split at moved
    · rename_i own
      cases moved
      refine sound.move inside stage (.wiring (k+1)) _ (Nat.le_succ 3) (Nat.le_refl 4) ?_ first (fun rank => absurd rank (by simp [Startup.rank]))
      intro i there maps
      refine known i there ?_
      rcases maps with here | below
      · exact Or.inl here
      · rcases Nat.lt_succ_iff_lt_or_eq.mp below with earlier | rfl
        · exact Or.inr earlier
        · exact Or.inl own
    · obtain ⟨id,heap,named⟩ := sound.own k within (Nat.le_trans (by decide) (first k within))
      simp only [opened] at moved
      rw [shmOpen_known named] at moved
      simp only [if_neg nonzero] at moved
      cases moved
      refine sound.move inside stage (.wiring (k+1)) _ (Nat.le_succ 3) (Nat.le_refl 4) ?_ first (fun rank => absurd rank (by simp [Startup.rank]))
      intro i there maps
      by_cases new : i = k
      · subst new
        rw [Function.update_self,heap]
      · rw [Function.update_of_ne new]
        refine known i there ?_
        rcases maps with here | below
        · exact Or.inl here
        · exact Or.inr (Nat.lt_of_le_of_ne (Nat.le_of_lt_succ below) new)
  · rename_i finished
    cases moved
    refine sound.move inside stage .clearing _ (Nat.le_succ 3) (Nat.le_succ 4) ?_ first (fun rank => absurd rank (by decide))
    exact fun i there _ => known i there (Or.inr (Nat.lt_of_lt_of_le there (Nat.le_of_not_lt finished)))

theorem advance_sound (sound : NodeSound job s) (inside : me < job.n) (succeeds : outcome.Succeeds)
    (moved : s.advance job me outcome = some t) : NodeSound job t := by
  obtain ⟨fd,opened,nonzero,works⟩ := succeeds.opened
  have advanced := moved
  unfold NodeMemory.advance at moved
  cases stage : (s.pes me).stage with
  | opening =>
    simp only [stage,opened] at moved
    cases moved
    exact sound.opening inside stage (shmOpen_opens sound.unique sound.old _)
  | truncating =>
    simp only [stage] at moved
    obtain ⟨id,heap,same⟩ := Option.bind_eq_some_iff.mp moved
    simp only [works,if_true] at same
    cases same
    refine sound.fill inside heap _ stage .zeroing (by decide) (by decide) (by decide) rfl ?_ (fun i maps => maps.elim) ?_ (by decide)
    · exact fun rank => absurd rank (by decide)
    · exact fun rank => absurd rank (by decide)
  | zeroing =>
    simp only [stage] at moved
    obtain ⟨id,heap,moved⟩ := Option.bind_eq_some_iff.mp moved
    have sized := sound.sized me inside (by rw [stage]; decide) id heap
    split at moved
    · cases moved
      refine sound.fill inside heap _ stage .created (by decide) (by decide) (by decide) sized ?_ (fun i maps => maps.elim) ?_ (by decide)
      · exact fun _ a below => if_pos below
      · exact fun rank => absurd rank (by decide)
    · cases moved
  | created =>
    simp only [stage] at moved
    split at moved
    · rename_i all
      obtain ⟨id,heap,made⟩ := Option.bind_eq_some_iff.mp moved
      cases made
      refine sound.move inside stage (.wiring 0) _ (by decide) (by decide) ?_ all (fun rank => absurd rank (by decide))
      intro i _ maps
      rcases maps with rfl | below
      · exact (Function.update_self _ _ _).trans heap.symm
      · cases below
    · cases moved
  | wiring k => exact sound.wire inside stage succeeds advanced
  | clearing =>
    simp only [stage] at moved
    obtain ⟨id,heap,moved⟩ := Option.bind_eq_some_iff.mp moved
    have sized := sound.sized me inside (by rw [stage]; decide) id heap
    have filled := sound.filled me inside (by rw [stage]; decide) id heap
    have blank := sound.blank inside (by rw [stage]; decide)
    split at moved
    · cases moved
      refine sound.fill inside heap _ stage .wired (by decide) (by decide) (by decide) sized ?_ (fun _ _ => trivial) ?_ (by decide)
      · intro _ a below
        by_cases cleared : a < job.pSync
        · exact if_pos cleared
        · exact (if_neg cleared).trans ((filled a below).trans (blank a))
      · exact fun _ => by decide
    · cases moved
  | wired =>
    simp only [stage] at moved
    split at moved
    · rename_i all
      cases moved
      refine sound.move inside stage .running _ (by decide) (by decide) ?_ (fun q there => Nat.le_trans (by decide) (all q there))
        (fun _ => all)
      intro i there _
      refine sound.attached me inside i there ?_
      rw [stage]
      trivial
    · cases moved
  | running =>
    simp only [stage] at moved
    cases moved

theorem nodeStart_sound (names : String → Option Nat) (objects : Nat → ShmObject) (made : Nat)
    (unique : ∀ k l id, names k = some id → names l = some id → k = l) (old : ∀ k id, names k = some id → id < made) :
    NodeSound job (.start names objects made) := by
  refine ⟨unique,old,?_,?_,?_,?_,?_,?_,?_⟩
  · exact fun p _ rank => absurd rank (by simp [NodeMemory.start,Startup.rank])
  · exact fun p _ rank => absurd rank (by simp [NodeMemory.start,Startup.rank])
  · exact fun p _ rank => absurd rank (by simp [NodeMemory.start,Startup.rank])
  · exact fun p _ i _ maps => maps.elim
  · exact fun p _ rank => absurd rank (by simp [NodeMemory.start,Startup.rank])
  · exact fun p _ rank => absurd rank (by simp [NodeMemory.start,Startup.rank])
  · exact fun some => absurd rfl some

-- What a running PE's mappings are.
theorem NodeSound.shown (sound : NodeSound job s) (inside : me < job.n) (running : (s.pes me).stage = .running) (there : i < job.n) :
    ∃ id, (s.pes me).slots i = some id ∧ (s.pes i).heap = some id ∧ (s.objects id).size = symmetricHeapSize ∧
      ∀ a < symmetricHeapSize, (s.objects id).bytes a = replay (fun _ => 0) (s.putsTo job i) a := by
  have ready : 6 ≤ (s.pes i).stage.rank := sound.second me inside (by rw [running]; decide) i there
  obtain ⟨id,heap,_⟩ := sound.own i there (Nat.le_trans (by decide) ready)
  have slot := sound.attached me inside i there (by rw [running]; trivial)
  exact ⟨id,slot.trans heap,heap,sound.sized i there (Nat.le_trans (by decide) ready) id heap,
    sound.filled i there (Nat.le_trans (by decide) ready) id heap⟩

theorem putsTo_copy (s : NodeMemory) (pe id dest : Nat) (bytes : List UInt8) (i : Nat) :
    (s.copy pe id dest bytes).putsTo job i = if job.localRank pe = i then s.putsTo job i ++ [(dest,bytes)] else s.putsTo job i := by
  unfold NodeMemory.putsTo NodeMemory.copy
  rw [List.filterMap_append]
  by_cases here : job.localRank pe = i
  · simp [here]
  · simp [here]

-- The two ways that a PE's put goes.
theorem commLocalPut_cases (put : s.commLocalPut job me pe dest bytes = some t) : t = s ∨
    ∃ id, s.mapped job me pe = some (some id) ∧ dest + bytes.length ≤ (s.objects id).size ∧ t = s.copy pe id dest bytes := by
  obtain ⟨shown,looked,put⟩ := Option.bind_eq_some_iff.mp put
  cases shown with
  | none =>
    cases put
    exact Or.inl rfl
  | some id =>
    simp only at put
    split at put
    · rename_i fits
      cases put
      exact Or.inr ⟨id,looked,fits,rfl⟩
    · cases put

theorem mapped_cases (looked : s.mapped job me pe = some (some id)) : ∃ entry, job.localityMap pe = some entry ∧
    entry.type = .near ∧ (s.pes me).slots entry.index = some id := by
  obtain ⟨entry,found,looked⟩ := Option.bind_eq_some_iff.mp looked
  cases type : entry.type with
  | near =>
    simp only [type] at looked
    obtain ⟨shown,slot,same⟩ := Option.bind_eq_some_iff.mp looked
    cases same
    exact ⟨entry,found,type,slot⟩
  | remote =>
    simp only [type] at looked
    cases looked

theorem commLocalPut_sound (sound : NodeSound job s) (ranked : job.Ranked) (inside : me < job.n)
    (running : (s.pes me).stage = .running) (put : s.commLocalPut job me pe dest bytes = some t) : NodeSound job t := by
  rcases commLocalPut_cases put with rfl | ⟨id,looked,_,rfl⟩
  · exact sound
  obtain ⟨entry,found,near,slot⟩ := mapped_cases looked
  have there := job.indexed pe entry found near
  have numbered := ranked pe entry found near
  obtain ⟨shown,slot',heap,size,_⟩ := sound.shown inside running there
  rw [slot] at slot'
  cases slot'
  have passed : 6 ≤ (s.pes entry.index).stage.rank := sound.second me inside (by rw [running]; decide) _ there
  refine ⟨sound.unique,sound.old,sound.own,?_,?_,sound.attached,sound.first,sound.second,fun _ => ⟨me,inside,?_⟩⟩
  · intro q within rank o mine
    have sized := sound.sized q within rank o mine
    by_cases here : o = id
    · subst here
      exact (congrArg ShmObject.size (setObject_same _ _ _)).trans sized
    · exact (congrArg ShmObject.size (setObject_other here _)).trans sized
  · intro q within rank o mine a below
    have filled := sound.filled q within rank o mine a below
    rw [putsTo_copy,← numbered]
    by_cases here : entry.index = q
    · subst here
      have same := heap.symm.trans mine
      cases same
      rw [if_pos rfl,ByteMemory.replay_snoc]
      exact (congrFun (congrArg ShmObject.bytes (setObject_same _ _ _)) a).trans (ByteMemory.memcpy_congr filled)
    · have other : o ≠ id := by
        rintro rfl
        exact sound.apart there within here (Nat.le_trans (by decide) passed) (Nat.le_trans (by decide) rank) (heap.trans mine.symm)
      rw [if_neg here]
      exact (congrFun (congrArg ShmObject.bytes (setObject_other other _)) a).trans filled
  · exact Nat.le_of_eq (congrArg Startup.rank running).symm

theorem nodeStep_sound (sound : NodeSound job s) (ranked : job.Ranked) (succeeds : event.Succeeds)
    (moved : s.step job event = some t) : NodeSound job t := by
  cases event with
  | advance me outcome =>
    by_cases inside : me < job.n
    · rw [NodeMemory.step,if_pos inside] at moved
      exact advance_sound sound inside succeeds moved
    · rw [NodeMemory.step,if_neg inside] at moved
      cases moved
  | put me pe dest bytes =>
    by_cases ready : me < job.n ∧ (s.pes me).stage = .running
    · rw [NodeMemory.step,if_pos ready] at moved
      exact commLocalPut_sound sound ranked ready.1 ready.2 moved
    · rw [NodeMemory.step,if_neg ready] at moved
      cases moved

-- The steps that a PE has left until it runs.
def Startup.left (n : Nat) : Startup → Nat
  | .opening => n + 7
  | .truncating => n + 6
  | .zeroing => n + 5
  | .created => n + 4
  | .wiring i => n - i + 3
  | .clearing => 2
  | .wired => 1
  | .running => 0

def NodeMemory.left (job : NodeJob) (s : NodeMemory) : Nat := Totals.total job.n fun p => (s.pes p).stage.left job.n

theorem shmOpen_pes (s : NodeMemory) (key : String) : (s.shmOpen key).1.pes = s.pes := by
  unfold NodeMemory.shmOpen
  cases s.names key with
  | none => rfl
  | some id => rfl

theorem advance_pes (moved : s.advance job me outcome = some t) :
    ∃ pe, t.pes = Function.update s.pes me pe ∧ pe.stage.left job.n < (s.pes me).stage.left job.n := by
  unfold NodeMemory.advance at moved
  cases stage : (s.pes me).stage with
  | opening =>
    simp only [stage] at moved
    split at moved
    · cases moved
      exact ⟨_,rfl,Nat.add_lt_add_left (by decide : 4 < 7) job.n⟩
    · cases moved
      exact ⟨_,by rw [NodeMemory.setPe,shmOpen_pes],Nat.lt_succ_self _⟩
  | truncating =>
    simp only [stage] at moved
    obtain ⟨id,_,same⟩ := Option.bind_eq_some_iff.mp moved
    cases same
    exact ⟨_,rfl,Nat.lt_succ_self _⟩
  | zeroing =>
    simp only [stage] at moved
    obtain ⟨id,_,moved⟩ := Option.bind_eq_some_iff.mp moved
    split at moved
    · cases moved
      exact ⟨_,rfl,Nat.lt_succ_self _⟩
    · cases moved
  | created =>
    simp only [stage] at moved
    split at moved
    · obtain ⟨id,_,made⟩ := Option.bind_eq_some_iff.mp moved
      cases made
      exact ⟨_,rfl,Nat.lt_succ_self _⟩
    · cases moved
  | wiring k =>
    simp only [stage] at moved
    split at moved
    · rename_i within
      have less : job.n - (k + 1) + 3 < job.n - k + 3 := by omega
      split at moved
      · cases moved
        exact ⟨_,rfl,less⟩
      · split at moved
        · cases moved
          exact ⟨_,rfl,less⟩
        · rename_i fd _
          cases moved
          refine ⟨_,by rw [NodeMemory.setPe,shmOpen_pes],?_⟩
          by_cases zero : fd = 0
          · simp only [zero,if_true,Startup.left]
            omega
          · simp only [zero,if_false,Startup.left]
            exact less
    · cases moved
      exact ⟨_,rfl,Nat.lt_of_lt_of_le (Nat.lt_succ_self 2) (Nat.le_add_left 3 _)⟩
  | clearing =>
    simp only [stage] at moved
    obtain ⟨id,_,moved⟩ := Option.bind_eq_some_iff.mp moved
    split at moved
    · cases moved
      exact ⟨_,rfl,Nat.lt_succ_self _⟩
    · cases moved
  | wired =>
    simp only [stage] at moved
    split at moved
    · cases moved
      exact ⟨_,rfl,Nat.lt_succ_self _⟩
    · cases moved
  | running =>
    simp only [stage] at moved
    cases moved

theorem advance_left (inside : me < job.n) (moved : s.advance job me outcome = some t) : t.left job < s.left job := by
  obtain ⟨pe,pes,less⟩ := advance_pes moved
  have change := Totals.total_update (f := fun p => (s.pes p).stage.left job.n) (g := fun p => (t.pes p).stage.left job.n) inside
    (fun k other => by rw [pes,Function.update_of_ne other])
  unfold NodeMemory.left
  simp only [pes,Function.update_self] at change ⊢
  omega

-- No PE waits for ever: the one that is furthest behind has a step.
theorem NodeSound.moves (sound : NodeSound job s) (inside : p < job.n) (behind : (s.pes p).stage ≠ .running)
    (last : ∀ q < job.n, (s.pes p).stage.rank ≤ (s.pes q).stage.rank) (succeeds : outcome.Succeeds) :
    ∃ t, s.advance job p outcome = some t := by
  obtain ⟨fd,opened,_,works⟩ := succeeds.opened
  have sized : 2 ≤ (s.pes p).stage.rank → ∃ id, (s.pes p).heap = some id ∧ (s.objects id).size = symmetricHeapSize := by
    intro rank
    obtain ⟨id,heap,_⟩ := sound.own p inside (Nat.le_trans (by decide) rank)
    exact ⟨id,heap,sound.sized p inside rank id heap⟩
  unfold NodeMemory.advance
  cases stage : (s.pes p).stage with
  | opening => exact ⟨_,by simp only [stage,opened]; rfl⟩
  | truncating =>
    obtain ⟨id,heap,_⟩ := sound.own p inside (by rw [stage]; decide)
    exact ⟨_,by simp only [stage,heap]; rfl⟩
  | zeroing =>
    obtain ⟨id,heap,size⟩ := sized (by rw [stage]; decide)
    exact ⟨_,by simp only [stage,heap,Option.bind_eq_bind,Option.bind_some]; exact if_pos ⟨works,Nat.le_of_eq size.symm⟩⟩
  | created =>
    obtain ⟨id,heap,_⟩ := sized (by rw [stage]; decide)
    rw [stage] at last
    exact ⟨_,by simp only [stage,heap]; exact if_pos last⟩
  | wiring k =>
    by_cases within : k < job.n
    · by_cases own : k = p
      · exact ⟨_,by simp only [stage]; rw [if_pos within,if_pos own]⟩
      · exact ⟨_,by simp only [stage,opened]; rw [if_pos within,if_neg own]⟩
    · exact ⟨_,by simp only [stage]; rw [if_neg within]⟩
  | clearing =>
    obtain ⟨id,heap,size⟩ := sized (by rw [stage]; decide)
    have fits : job.pSync ≤ (s.objects id).size := by
      rw [size]
      exact job.fits
    exact ⟨_,by simp only [stage,heap,Option.bind_eq_bind,Option.bind_some]; exact if_pos fits⟩
  | wired =>
    rw [stage] at last
    exact ⟨_,by simp only [stage]; exact if_pos last⟩
  | running => exact absurd stage behind

theorem NodeSound.progress (sound : NodeSound job s) (inside : p < job.n) (behind : (s.pes p).stage ≠ .running) :
    ∃ q < job.n, ∀ outcome : Outcome, outcome.Succeeds → ∃ t, s.advance job q outcome = some t := by
  have some : (Finset.range job.n).Nonempty := ⟨p,Finset.mem_range.mpr inside⟩
  obtain ⟨q,member,least⟩ := Finset.exists_min_image _ (fun q => (s.pes q).stage.rank) some
  have there := Finset.mem_range.mp member
  refine ⟨q,there,fun outcome => sound.moves there ?_ fun r within => least r (Finset.mem_range.mpr within)⟩
  intro running
  have below := least p (Finset.mem_range.mpr inside)
  rw [running] at below
  cases stage : (s.pes p).stage with
  | running => exact behind stage
  | opening | truncating | zeroing | created | wiring _ | clearing | wired => simp [stage,Startup.rank] at below

theorem NodeSound.slot (sound : NodeSound job s) (ranked : job.Ranked) (inside : me < job.n) (running : (s.pes me).stage = .running)
    (found : job.localityMap pe = some entry) (near : entry.type = .near) : ∃ id, s.mapped job me pe = some (some id) ∧
      (s.pes (job.localRank pe)).heap = some id ∧ (s.objects id).size = symmetricHeapSize ∧
      ∀ a < symmetricHeapSize, (s.objects id).bytes a = replay (fun _ => 0) (s.putsTo job (job.localRank pe)) a := by
  obtain ⟨id,slot,heap,size,filled⟩ := sound.shown inside running (job.indexed pe entry found near)
  rw [ranked pe entry found near] at heap filled
  exact ⟨id,by simp [NodeMemory.mapped,found,near,slot],heap,size,filled⟩

theorem read_congr {one two : Nat → UInt8} (same : ∀ a < src + size, one a = two a) : read one src size = read two src size :=
  List.map_congr_left fun _ member => same _ (Nat.add_lt_add_left (List.mem_range.mp member) src)

-- A node on which every local PE's heap is one memory: a zeroed region with the puts to the
-- PE in the order in which they were made, whichever PE looks at it.
structure NodeShared (job : NodeJob) (s : NodeMemory) : Prop where
  own : ∀ me < job.n, (s.pes me).stage = .running → ∀ i < job.n, ∃ id, (s.pes i).heap = some id ∧
    (s.objects id).size = symmetricHeapSize ∧ ∀ a < symmetricHeapSize, (s.objects id).bytes a = replay (fun _ => 0) (s.putsTo job i) a
  reads : ∀ me < job.n, (s.pes me).stage = .running → ∀ pe entry, job.localityMap pe = some entry → entry.type = .near →
    ∀ src size, src + size ≤ symmetricHeapSize →
      s.commLocalGet job me pe src size = some (read (replay (fun _ => 0) (s.putsTo job (job.localRank pe))) src size)
  writes : ∀ me < job.n, (s.pes me).stage = .running → ∀ pe entry, job.localityMap pe = some entry → entry.type = .near →
    ∀ dest bytes, dest + bytes.length ≤ symmetricHeapSize → ∃ t, s.step job (.put me pe dest bytes) = some t ∧
      ∀ i, t.putsTo job i = if job.localRank pe = i then s.putsTo job i ++ [(dest,bytes)] else s.putsTo job i
  apart : ∀ p < job.n, ∀ q < job.n, p ≠ q → (∃ me < job.n, (s.pes me).stage = .running) → (s.pes p).heap ≠ (s.pes q).heap
  progress : ∀ p < job.n, (s.pes p).stage ≠ .running → ∃ q < job.n, ∀ outcome : Outcome, outcome.Succeeds →
    ∃ t, s.step job (.advance q outcome) = some t
  descends : ∀ me outcome t, s.step job (.advance me outcome) = some t → t.left job < s.left job

theorem NodeSound.shared (sound : NodeSound job s) (ranked : job.Ranked) : NodeShared job s := by
  refine ⟨?_,?_,?_,?_,?_,?_⟩
  · intro me inside running i there
    obtain ⟨id,_,heap,size,filled⟩ := sound.shown inside running there
    exact ⟨id,heap,size,filled⟩
  · intro me inside running pe entry found near src size fits
    obtain ⟨id,mapped,_,whole,filled⟩ := sound.slot ranked inside running found near
    have same : read (s.objects id).bytes src size = read (replay (fun _ => 0) (s.putsTo job (job.localRank pe))) src size :=
      read_congr fun a below => filled a (Nat.lt_of_lt_of_le below fits)
    simp [NodeMemory.commLocalGet,mapped,whole,fits,same]
  · intro me inside running pe entry found near dest bytes fits
    obtain ⟨id,mapped,_,whole,_⟩ := sound.slot ranked inside running found near
    refine ⟨s.copy pe id dest bytes,?_,putsTo_copy s pe id dest bytes⟩
    simp [NodeMemory.step,NodeMemory.commLocalPut,inside,running,mapped,whole,fits]
  · intro p one q two different ⟨me,inside,running⟩
    have passed := sound.second me inside (by rw [running]; decide)
    exact sound.apart one two different (Nat.le_trans (by decide) (passed p one)) (Nat.le_trans (by decide) (passed q two))
  · intro p inside behind
    obtain ⟨q,there,moves⟩ := sound.progress inside behind
    refine ⟨q,there,fun outcome succeeds => ?_⟩
    obtain ⟨t,moved⟩ := moves outcome succeeds
    exact ⟨t,by rw [NodeMemory.step,if_pos there]; exact moved⟩
  · intro me outcome t moved
    by_cases inside : me < job.n
    · rw [NodeMemory.step,if_pos inside] at moved
      exact advance_left inside moved
    · rw [NodeMemory.step,if_neg inside] at moved
      cases moved

-- On every node, whatever objects are left on it and however its PEs start up, when none of
-- their system calls fails and shm_open gives no descriptor 0.
theorem node_memory_shared (ranked : job.Ranked) (unique : ∀ k l id, names k = some id → names l = some id → k = l)
    (old : ∀ k id, names k = some id → id < made)
    (meets : (nodeMemories job).Meets (fun _ event => event.Succeeds) (.start names objects made) events)
    (ran : (nodeMemories job).run (.start names objects made) events = some s) : NodeShared job s := by
  have kept : ∀ s event t, NodeSound job s → event.Succeeds → (nodeMemories job).step s event = some t → NodeSound job t :=
    fun _ _ _ sound succeeds moved => nodeStep_sound sound ranked succeeds moved
  exact (Guarded.Machine.run_keeps kept (nodeStart_sound names objects made unique old) meets ran).shared ranked

end Soundness

-- The heap of PE 0, whose local rank is 1, was left behind, too short and full of sevens.
theorem node_memory_shared_stale : ∃ job s, (nodeMemories job).run
    (.start (fun key => if key = sharedMemKeyInt 1 then some 0 else none) (fun _ => ⟨16,fun _ => 7⟩) 1)
    ([0,0,0,1,1,1,0,0,1,0,0,0,1,1,1,1,0,1].map (NodeEvent.advance · ⟨some 3,true⟩) ++ [.put 0 0 8 [1,2]]) = some s ∧
    s.putsTo job 1 = [(8,[1,2])] ∧ NodeShared job s := by
  let place : Placement := ⟨2,"a",[⟨"a",[1,0]⟩],by decide,by decide,by decide⟩
  let job := place.nodeJob (1 - ·) 8 (by decide)
  let names : String → Option Nat := fun key => if key = sharedMemKeyInt 1 then some 0 else none
  let events : List NodeEvent := [0,0,0,1,1,1,0,0,1,0,0,0,1,1,1,1,0,1].map (NodeEvent.advance · ⟨some 3,true⟩) ++ [.put 0 0 8 [1,2]]
  have last : ((nodeMemories job).run (.start names (fun _ => ⟨16,fun _ => 7⟩) 1) events).map (·.putsTo job 1) = some [(8,[1,2])] := by
    decide +kernel
  have meets : (nodeMemories job).Meets (fun _ event => event.Succeeds) (.start names (fun _ => ⟨16,fun _ => 7⟩) 1) events := by
    decide +kernel
  obtain ⟨s,ran,puts⟩ := Option.map_eq_some_iff.mp last
  refine ⟨job,s,ran,puts,node_memory_shared ?_ ?_ ?_ meets ran⟩
  · intro pe entry found _
    have inside := Placement.entry_inside found
    have all : ∀ pe < 2, (place.localityMap pe).all (fun entry => entry.index = 1 - pe) = true := by decide +kernel
    have here := all pe inside
    have same : place.localityMap pe = some entry := found
    rw [same] at here
    exact (decide_eq_true_eq ..).mp here
  · intro k l id one two
    have first : k = sharedMemKeyInt 1 := by by_contra other; simp [names,other] at one
    have second : l = sharedMemKeyInt 1 := by by_contra other; simp [names,other] at two
    rw [first,second]
  · intro k id same
    by_cases here : k = sharedMemKeyInt 1
    · simp only [names,here,if_true,Option.some.injEq] at same
      exact same ▸ Nat.one_pos
    · simp [names,here] at same

end OpenShmem
