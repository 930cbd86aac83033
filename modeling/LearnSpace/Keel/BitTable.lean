import Mathlib.Logic.Function.Basic

/-!
# A set as a table of bytes

`n` bytes hold a set of the numbers below `n * 8`, number `i` as bit `i % 8` of byte `i / 8`.
`flip_holds` says what it does to the set to exclusive-or one bit into its byte: that number
changes sides, whichever side it was on, and no other does.
-/

namespace Keel.BitTable

open Function

variable {n : Nat}

/-- The byte in which number `i` is. -/
def index (i : Fin (n * 8)) : Fin n := ⟨i / 8, Nat.div_lt_of_lt_mul (Nat.mul_comm n 8 ▸ i.isLt)⟩

/-- Whether the set holds `i`. -/
def holds (t : Fin n → BitVec 8) (i : Fin (n * 8)) : Bool := (t (index i)).getLsbD (i % 8)

/-- Bit `i` is exclusive-ored into its byte. -/
def flip (t : Fin n → BitVec 8) (i : Fin (n * 8)) : Fin n → BitVec 8 :=
  update t (index i) (t (index i) ^^^ (1#8 <<< (i % 8 : Nat)))

theorem getLsbD_one_shiftLeft {p q : Nat} (hq : q < 8) :
    (1#8 <<< p).getLsbD q = decide (q = p) := by
  rw [BitVec.getLsbD_shiftLeft, BitVec.getLsbD_one]
  by_cases hpq : q = p
  · simp [hpq]
    omega
  · simp [hpq]
    omega

/-- Two numbers are the same if their bytes and their bits are. -/
theorem eq_of_index {i j : Fin (n * 8)} (hindex : index i = index j)
    (hbit : (i % 8 : Nat) = j % 8) : i = j := by
  have hdiv : (i / 8 : Nat) = j / 8 := congrArg Fin.val hindex
  apply Fin.ext
  omega

/-- Number `i` changes sides, and no other. -/
theorem flip_holds (t : Fin n → BitVec 8) (i j : Fin (n * 8)) :
    holds (flip t i) j = (holds t j ^^ decide (j = i)) := by
  unfold holds flip
  by_cases hindex : index j = index i
  · have hbit : decide ((j % 8 : Nat) = i % 8) = decide (j = i) := by
      apply decide_eq_decide.mpr
      constructor
      · intro hmod
        exact eq_of_index hindex hmod
      · intro heq
        rw [heq]
    rw [hindex, update_self, BitVec.getLsbD_xor,
      getLsbD_one_shiftLeft (Nat.mod_lt _ (by decide)), hbit]
  · have hne : j ≠ i := by
      intro heq
      exact hindex (congrArg index heq)
    rw [update_of_ne hindex, decide_eq_false hne, Bool.xor_false]

end Keel.BitTable
