import Mathlib.Algebra.Group.Nat.Defs
import Mathlib.Data.List.Basic
import Mathlib.Order.Basic

/-!
# Little-endian numbers

The bytes of a number, the lowest one first, and the number of some bytes. Written in `k` bytes
and read back a number is what it was modulo 256^k (`value_bytes`).
-/

namespace Keel.LittleEndian

/-- The `k` low bytes of `n`. -/
def bytes : (k n : Nat) → List UInt8
  | 0, _ => []
  | k + 1, n => UInt8.ofNat n :: bytes k (n / 256)

/-- The number that `bs` are the bytes of. -/
def value : List UInt8 → Nat
  | [] => 0
  | b :: bs => b.toNat + 256 * value bs

@[simp] theorem length_bytes (k n : Nat) : (bytes k n).length = k := by
  induction k generalizing n with
  | zero => rfl
  | succ k ih => rw [bytes, List.length_cons, ih]

theorem value_bytes (k n : Nat) : value (bytes k n) = n % 256 ^ k := by
  induction k generalizing n with
  | zero => rw [bytes, value, Nat.pow_zero, Nat.mod_one]
  | succ k ih =>
      have hpow : 256 ^ (k + 1) = 256 * 256 ^ k := Nat.pow_succ'
      rw [bytes, value, ih, UInt8.toNat_ofNat', hpow]
      exact Nat.mod_mul.symm

end Keel.LittleEndian
