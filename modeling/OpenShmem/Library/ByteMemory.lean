import Mathlib.Logic.Function.Basic
import Mathlib.Data.List.Basic
import Mathlib.Data.List.Induction

namespace ByteMemory

def memcpy (memory : Nat → UInt8) (dest : Nat) : List UInt8 → Nat → UInt8
  | [] => memory
  | byte :: rest => Function.update (memcpy memory (dest+1) rest) dest byte

def read (memory : Nat → UInt8) (source count : Nat) : List UInt8 := (List.range count).map fun i => memory (source + i)

variable {memory : Nat → UInt8} {dest address : Nat} {bytes : List UInt8}

theorem memcpy_outside (outside : address < dest ∨ dest + bytes.length ≤ address) :
    memcpy memory dest bytes address = memory address := by
  induction bytes generalizing dest with
  | nil => rfl
  | cons byte rest ih =>
    rw [List.length_cons] at outside
    have apart : address ≠ dest := by omega
    rw [memcpy,Function.update_of_ne apart]
    exact ih (by omega)

-- What a byte is after a copy depends on that byte alone.
theorem memcpy_congr {other : Nat → UInt8} (same : memory address = other address) :
    memcpy memory dest bytes address = memcpy other dest bytes address := by
  induction bytes generalizing dest with
  | nil => exact same
  | cons byte rest ih =>
    by_cases here : address = dest
    · simp [memcpy,here]
    · rw [memcpy,memcpy,Function.update_of_ne here,Function.update_of_ne here,ih]

theorem memcpy_inside (inside : i < bytes.length) : memcpy memory dest bytes (dest + i) = bytes[i] := by
  induction bytes generalizing dest i with
  | nil => cases inside
  | cons byte rest ih =>
    rw [memcpy]
    cases i with
    | zero => simp
    | succ i =>
      have apart : dest + (i + 1) ≠ dest := by omega
      have shifted : dest + (i + 1) = dest + 1 + i := by omega
      rw [Function.update_of_ne apart,shifted,List.getElem_cons_succ]
      exact ih (Nat.lt_of_succ_lt_succ inside)

theorem read_memcpy : read (memcpy memory dest bytes) dest bytes.length = bytes := by
  apply List.ext_getElem
  · simp [read]
  · intro i _ inside
    simp only [read,List.getElem_map,List.getElem_range]
    exact memcpy_inside inside

-- A copy of what stands there already.
theorem memcpy_read (held : read memory dest bytes.length = bytes) : memcpy memory dest bytes = memory := by
  funext address
  by_cases inside : dest ≤ address ∧ address < dest + bytes.length
  · obtain ⟨i,rfl⟩ := Nat.exists_eq_add_of_le inside.1
    have below : i < bytes.length := by omega
    rw [memcpy_inside below]
    have byte : (read memory dest bytes.length)[i]? = bytes[i]? := by rw [held]
    simpa [read,below] using byte.symm
  · exact memcpy_outside (by omega)

@[simp] theorem length_read : (read memory source count).length = count := by simp [read]

-- What is copied beside a range leaves what it holds alone.
theorem read_outside (apart : source + count ≤ dest ∨ dest + bytes.length ≤ source) :
    read (memcpy memory dest bytes) source count = read memory source count := by
  apply List.map_congr_left
  intro i member
  have below := List.mem_range.mp member
  exact memcpy_outside (by omega)

-- Copies one after another, and ranges without a common byte.
def replay (memory : Nat → UInt8) (writes : List (Nat × List UInt8)) : Nat → UInt8 :=
  writes.foldl (fun memory write => memcpy memory write.1 write.2) memory

def Beside (write : Nat × List UInt8) (start size : Nat) : Prop := start + size ≤ write.1 ∨ write.1 + write.2.length ≤ start

variable {writes : List (Nat × List UInt8)}

theorem replay_append (first second : List (Nat × List UInt8)) :
    replay memory (first ++ second) = replay (replay memory first) second := List.foldl_append

theorem replay_snoc (write : Nat × List UInt8) : replay memory (writes ++ [write]) = memcpy (replay memory writes) write.1 write.2 :=
  replay_append _ _

-- A byte that no copy covers stays.
theorem replay_outside (outside : ∀ write ∈ writes, address < write.1 ∨ write.1 + write.2.length ≤ address) :
    replay memory writes address = memory address := by
  induction writes using List.reverseRecOn with
  | nil => rfl
  | append_singleton writes write ih =>
    rw [replay_snoc,memcpy_outside (outside write (by simp))]
    exact ih fun other member => outside other (List.mem_append_left _ member)

-- A range is read as a copy left it, if every other copy was beside it or the same.
theorem read_replay (member : (dest,bytes) ∈ writes)
    (free : ∀ write ∈ writes, Beside write dest bytes.length ∨ write = (dest,bytes)) :
    read (replay memory writes) dest bytes.length = bytes := by
  induction writes using List.reverseRecOn with
  | nil => cases member
  | append_singleton writes write ih =>
    rw [replay_snoc]
    rcases free write (by simp) with beside | same
    · rw [read_outside beside]
      have before : (dest,bytes) ∈ writes ∨ bytes = [] := by
        rcases List.mem_append.mp member with old | new
        · exact Or.inl old
        · refine Or.inr (List.eq_nil_of_length_eq_zero ?_)
          cases List.mem_singleton.mp new
          rcases beside with first | second
          · exact Nat.le_zero.mp (Nat.le_of_add_le_add_left first)
          · exact Nat.le_zero.mp (Nat.le_of_add_le_add_left second)
      rcases before with old | rfl
      · exact ih old fun other there => free other (List.mem_append_left _ there)
      · rfl
    · rw [same]
      exact read_memcpy

end ByteMemory
