import Mathlib.Tactic.Common

/-!
# What the containers share

`ContainerBase` bounds the size of every container and fixes the type of sizes and
positions. Sizes stay far enough below the modulus that counting up and down does not
wrap. Sequences, which the containers stand for, are lists. Whether an `assert` is there
depends on the build.
-/

namespace LearnSpace.DataStructure

/-- Whether there are assertions. -/
inductive Build
  | debug
  | release
  deriving DecidableEq

/-- An assertion that ends the process. -/
def Build.Stops (build : Build) (condition : Prop) : Prop := build = .debug ∧ ¬ condition

instance (build : Build) (condition : Prop) [Decidable condition] :
    Decidable (build.Stops condition) :=
  inferInstanceAs (Decidable (_ ∧ _))

/-- `ContainerBase::m_maxSize`. -/
def maxSize : UInt32 := 0xFF000000

theorem maxSize_toNat : maxSize.toNat = 4278190080 := rfl

theorem maxSize_pos : 0 < maxSize.toNat := by
  rw [maxSize_toNat]
  omega

/-- A size counted up. -/
theorem toNat_succ {n : UInt32} {k : Nat} (hn : n.toNat = k) (hk : k ≤ maxSize.toNat) :
    (n + 1).toNat = k + 1 := by
  rw [maxSize_toNat] at hk
  rw [UInt32.toNat_add, hn, UInt32.toNat_one]
  omega

/-- A size counted down. -/
theorem toNat_pred {n : UInt32} {k : Nat} (hn : n.toNat = k) (hk : 0 < k) :
    (n - 1).toNat = k - 1 := by
  have hle : (1 : UInt32) ≤ n := by
    rw [UInt32.le_iff_toNat_le, hn, UInt32.toNat_one]
    omega
  rw [UInt32.toNat_sub_of_le _ _ hle, hn, UInt32.toNat_one]

/-- A position that is not negative is the same number without a sign. -/
theorem toNat_toUInt32 {pos : Int32} (hpos : 0 ≤ pos.toInt) :
    pos.toUInt32.toNat = pos.toInt.toNat := by
  have hle : (0 : Int32) ≤ pos := by
    rw [Int32.le_iff_toInt_le]
    exact hpos
  rw [Int32.toNat_toUInt32_of_le hle]
  rfl

theorem eq_zero_iff_toNat {n : UInt32} : n = 0 ↔ n.toNat = 0 := by
  rw [← UInt32.toNat_inj]
  rfl

section Sequences

variable {T : Type} {n : UInt32} {ts : List T} {i j : Nat}

/-- A container without a size has no elements. -/
theorem size_eq_zero_iff (hn : n.toNat = ts.length) : n = 0 ↔ ts = [] := by
  rw [eq_zero_iff_toNat, hn, List.length_eq_zero_iff]

/-- The guard of the methods that take a position. -/
theorem ge_size_iff (hn : n.toNat = ts.length) (pos : UInt32) :
    pos ≥ n ↔ ts.length ≤ pos.toNat := by
  show n ≤ pos ↔ _
  rw [UInt32.le_iff_toNat_le, hn]

/-- Two elements of a sequence change places. Without either nothing does. -/
def swapAt {T : Type} (ts : List T) (i j : Nat) : List T :=
  match ts[i]?, ts[j]? with
  | some a, some b => (ts.set i b).set j a
  | _, _ => ts

theorem swapAt_eq {a b : T} (hi : ts[i]? = some a) (hj : ts[j]? = some b) :
    swapAt ts i j = (ts.set i b).set j a := by
  simp only [swapAt, hi, hj]

theorem length_swapAt (ts : List T) (i j : Nat) : (swapAt ts i j).length = ts.length := by
  unfold swapAt
  split
  · rw [List.length_set, List.length_set]
  · rfl

theorem swapAt_self (ts : List T) (i : Nat) : swapAt ts i i = ts := by
  cases ht : ts[i]? with
  | none => simp only [swapAt, ht]
  | some t =>
      obtain ⟨hi, rfl⟩ := List.getElem?_eq_some_iff.mp ht
      rw [swapAt_eq ht ht, List.set_getElem_self, List.set_getElem_self]

theorem swapAt_of_length_le (h : ts.length ≤ i ∨ ts.length ≤ j) : swapAt ts i j = ts := by
  rcases h with hi | hj
  · simp only [swapAt, List.getElem?_eq_none hi]
  · rw [swapAt, List.getElem?_eq_none hj]
    cases ts[i]? <;> rfl

end Sequences

section Minus

/-- A sequence without an element, once or everywhere. -/
def minus {T : Type} [BEq T] (t : T) (onlyOne : Bool) (ts : List T) : List T :=
  if onlyOne then ts.erase t else ts.filter (fun u => !(u == t))

variable {T : Type} [BEq T] {t v : T} {onlyOne : Bool} {vs : List T}

theorem minus_nil : minus t onlyOne [] = [] := by
  cases onlyOne <;> rfl

/-- An element that is taken out, the only one or one of several. -/
theorem minus_cons_pos (hv : (v == t) = true) :
    minus t onlyOne (v :: vs) = if onlyOne then vs else minus t onlyOne vs := by
  cases onlyOne with
  | true => simp [minus, List.erase_cons, hv]
  | false => simp [minus, hv]

theorem minus_cons_neg (hv : (v == t) = false) :
    minus t onlyOne (v :: vs) = v :: minus t onlyOne vs := by
  cases onlyOne with
  | true => simp [minus, hv]
  | false => simp [minus, hv]

end Minus

end LearnSpace.DataStructure
