import Mathlib.Data.UInt
import Mathlib.Order.Basic

/-!
# Serial numbers

Numbers that count up modulo 2^32 and are compared by the sign of their difference. As long as
two counts are less than 2^31 apart, the difference of the words is that of the counts, however
often the words have wrapped (`diff_ofNat`).
-/

namespace Keel.Serial

/-- How far `a` is ahead of `b`, negative if it is behind. -/
def diff (a b : UInt32) : Int := (a - b).toInt32.toInt

theorem diff_eq_ite (a b : UInt32) :
    diff a b = if (a - b).toNat < 2 ^ 31 then ((a - b).toNat : Int) else (a - b).toNat - 2 ^ 32 := by
  unfold diff
  rw [← Int32.toInt_toBitVec, UInt32.toBitVec_toInt32, BitVec.toInt_eq_toNat_cond,
    UInt32.toNat_toBitVec]
  split <;> split <;> omega

@[simp] theorem diff_self (a : UInt32) : diff a a = 0 := by
  rw [diff, UInt32.sub_self]
  rfl

/-- Two counts that are less than 2^31 apart are compared as they are. -/
theorem diff_ofNat {m n : Nat} (hle : m < n + 2 ^ 31) (hge : n ≤ m + 2 ^ 31) :
    diff (UInt32.ofNat m) (UInt32.ofNat n) = (m : Int) - n := by
  rw [diff_eq_ite, UInt32.toNat_sub, UInt32.toNat_ofNat', UInt32.toNat_ofNat']
  split <;> omega

theorem diff_eq_sub {a b : UInt32} (hle : a.toNat < b.toNat + 2 ^ 31)
    (hge : b.toNat ≤ a.toNat + 2 ^ 31) : diff a b = (a.toNat : Int) - b.toNat := by
  have h := diff_ofNat hle hge
  rwa [UInt32.ofNat_toNat, UInt32.ofNat_toNat] at h

/-! ## Windows -/

/-- How far `a` is in front of `base`, counted upwards. -/
def ahead (base a : UInt32) : Nat := (a - base).toNat

variable {base a b w : UInt32}

@[simp] theorem ahead_self (a : UInt32) : ahead a a = 0 := by
  rw [ahead, UInt32.sub_self]
  rfl

theorem ahead_eq (base a : UInt32) :
    ahead base a = (2 ^ 32 - base.toNat + a.toNat) % 2 ^ 32 := UInt32.toNat_sub a base

theorem ahead_inj (h : ahead base a = ahead base b) : a = b := by
  have ha := a.toNat_lt
  have hb := b.toNat_lt
  rw [ahead_eq, ahead_eq] at h
  apply UInt32.toNat_inj.mp
  omega

/-- Two numbers not too far in front of a third are compared by how far they are. -/
theorem diff_eq_ahead (ha : ahead base a < 2 ^ 31) (hb : ahead base b < 2 ^ 31) :
    diff a b = (ahead base a : Int) - ahead base b := by
  have hlt := a.toNat_lt
  have hlt' := b.toNat_lt
  rw [ahead_eq] at ha hb ⊢
  rw [ahead_eq, diff_eq_ite, UInt32.toNat_sub]
  split <;> omega

theorem ahead_of_diff_nonneg (h : 0 ≤ diff a base) : ahead base a < 2 ^ 31 := by
  have hlt := (a - base).toNat_lt
  rw [diff_eq_ite] at h
  rw [ahead]
  split at h <;> omega

/-- What is not behind the end of a window is in it. -/
theorem ahead_lt_of_diff_neg (hw : w.toNat < 2 ^ 31) (ha : ahead base a < 2 ^ 31)
    (h : diff a (base + w) < 0) : ahead base a < w.toNat := by
  have hend : ahead base (base + w) = w.toNat := by
    rw [ahead, UInt32.add_comm, UInt32.add_sub_cancel]
  rw [diff_eq_ahead ha (by omega), hend] at h
  omega

/-- A window whose start has moved. -/
theorem ahead_rebase (h : ahead base b ≤ ahead base a) :
    ahead b a = ahead base a - ahead base b := by
  have ha := a.toNat_lt
  have hb := b.toNat_lt
  rw [ahead_eq, ahead_eq] at h ⊢
  rw [ahead_eq]
  omega

theorem ahead_succ (hlt : ahead base a + 1 < 2 ^ 32) : ahead base (a + 1) = ahead base a + 1 := by
  have ha := a.toNat_lt
  rw [ahead_eq] at hlt ⊢
  rw [ahead_eq, UInt32.toNat_add]
  have hone : (1 : UInt32).toNat = 1 := rfl
  omega

end Keel.Serial
