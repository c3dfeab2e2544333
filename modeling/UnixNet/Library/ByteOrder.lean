import Mathlib.Algebra.Group.Nat.Defs
import Mathlib.Data.List.Basic
set_option autoImplicit false

/-! Numbers as rows of bytes, the least significant byte first. -/

namespace ByteOrder

def bytes : Nat → Nat → List UInt8
  | 0, _ => []
  | k+1, x => UInt8.ofNat x :: bytes k (x / 256)

def value : List UInt8 → Nat
  | [] => 0
  | b :: bs => b.toNat + 256 * value bs

@[simp] theorem bytes_length (k x : Nat) : (bytes k x).length = k := by
  induction k generalizing x with
  | zero => rfl
  | succ k ih => rw [bytes,List.length_cons,ih]

theorem value_bytes (k x : Nat) : value (bytes k x) = x % 256 ^ k := by
  induction k generalizing x with
  | zero => rw [bytes,value,Nat.pow_zero,Nat.mod_one]
  | succ k ih =>
    rw [bytes,value,ih,Nat.pow_succ',Nat.mod_mul]
    rfl

theorem value_lt (bs : List UInt8) : value bs < 256 ^ bs.length := by
  induction bs with
  | nil => simp [value]
  | cons b bs ih =>
    have hb := b.toNat_lt
    rw [value,List.length_cons,Nat.pow_succ']
    omega

end ByteOrder
