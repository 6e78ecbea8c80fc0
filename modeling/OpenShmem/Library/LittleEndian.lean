import Mathlib.Data.Nat.Basic
import Mathlib.Algebra.Group.Nat.Defs

namespace LittleEndian
variable {width n : Nat}

def bytes : Nat → Nat → List UInt8
  | 0,_ => []
  | width+1,n => UInt8.ofNat n :: bytes width (n / 256)

def value : List UInt8 → Nat
  | [] => 0
  | byte :: rest => byte.toNat + 256 * value rest

@[simp] theorem length_bytes : (bytes width n).length = width := by
  induction width generalizing n with
  | zero => rfl
  | succ width ih => simp [bytes,ih]

theorem value_bytes : value (bytes width n) = n % 256^width := by
  induction width generalizing n with
  | zero => simp [bytes,value,Nat.mod_one]
  | succ width ih =>
    have byte : (UInt8.ofNat n).toNat = n % 256 := rfl
    rw [bytes,value,ih,byte,Nat.pow_succ',Nat.mod_mul]

-- A machine word of that many bytes comes back whole.
theorem word_bytes (word : BitVec w) (fits : w ≤ 8 * width) : BitVec.ofNat w (value (bytes width word.toNat)) = word := by
  have small : word.toNat < 256^width := by
    have bound := word.isLt
    have power : 256^width = 2^(8*width) := by rw [Nat.pow_mul]
    have wide := Nat.pow_le_pow_right Nat.two_pos fits
    omega
  rw [value_bytes,Nat.mod_eq_of_lt small]
  exact BitVec.eq_of_toNat_eq (by simp)

end LittleEndian
