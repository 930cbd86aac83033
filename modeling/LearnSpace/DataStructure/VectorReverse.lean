import LearnSpace.Keel.Mirror
import LearnSpace.DataStructure.VectorRemoveOne

/-!
# `reverse` of the vector

`reverse` returns at once from a vector that `isEmpty` is true of, and otherwise exchanges
mirrored elements up to the middle. `isEmpty` answers whether there are elements. So the loop,
which does reverse what it is run on (`exchanges_run`), is only come to by a vector without any,
and `reverse` does what it is for just where there is nothing to do (`vector_reverse_iff`).
-/

namespace LearnSpace.DataStructure.Vector

open Keel

variable {T : Type} {σ : State T} {ts : List T}

/-! ## The method -/

/-- `isEmpty`. -/
def isEmpty (v : Vector) : Bool := v.size ≠ 0

/-- The index `m_size - 1 - i` for `size_t i`. -/
def mirror (v : Vector) (i : Nat) : Nat := ((v.size - 1).toUInt64 - UInt64.ofNat i).toNat

/-- One iteration of the loop of `reverse`, which also notes the indices it touches. -/
def exchange (v : Vector) : Arrays T × List Nat → Nat → Option (Arrays T × List Nat)
  | (h, touched), i => do
    let tmp ← h.get v.element i
    let t ← h.get v.element (v.mirror i)
    let h ← h.set v.element i t
    let h ← h.set v.element (v.mirror i) tmp
    return (h, touched ++ [i, v.mirror i])

/-- The loop of `reverse`. -/
def exchanges (v : Vector) (h : Arrays T) : Option (Arrays T × List Nat) :=
  (List.range (v.size / 2).toNat).foldlM v.exchange (h, [])

/-- `reverse`, and the indices it touches. -/
def reverse (v : Vector) (h : Arrays T) : Option (State T × List Nat) := do
  if v.isEmpty then
    return ((h, v), [])
  let (h, touched) ← v.exchanges h
  return ((h, v), touched)

/-- What `reverse` is for, in a vector that holds `ts`: it holds the reverse, with the same size
and capacity, and nothing behind its end was touched. -/
def ReverseRight (σ : State T) (ts : List T) : Prop :=
  ∃ τ touched, σ.2.reverse σ.1 = some (τ, touched) ∧ Stored τ ts.reverse ∧
    τ.2.size = σ.2.size ∧ τ.2.capacity = σ.2.capacity ∧ ∀ i ∈ touched, i < ts.length

/-! ## The loop -/

namespace Stored

theorem mirror_eq (s : Stored σ ts) {i : Nat} (hi : i < ts.length) :
    σ.2.mirror i = ts.length - 1 - i := by
  have hpred := toNat_pred s.counted (Nat.zero_lt_of_lt hi)
  have hlt := σ.2.size.toNat_lt
  have hcounted := s.counted
  have hindex : (UInt64.ofNat i).toNat = i := UInt64.toNat_ofNat_of_lt' (by
    show i < 2 ^ 64
    omega)
  have hle : UInt64.ofNat i ≤ (σ.2.size - 1).toUInt64 := by
    rw [UInt64.le_iff_toNat_le, hindex, UInt32.toNat_toUInt64, hpred]
    omega
  rw [mirror, UInt64.toNat_sub_of_le _ _ hle, hindex, UInt32.toNat_toUInt64, hpred]

/-- An iteration exchanges two mirrored elements. -/
theorem exchange_spec (s : Stored σ ts) (touched : List Nat) {i : Nat} {a b : T}
    (hi : i < ts.length / 2) (ha : ts[i]? = some a) (hb : ts[ts.length - 1 - i]? = some b) :
    ∃ h, σ.2.exchange (σ.1, touched) i = some (h, touched ++ [i, ts.length - 1 - i]) ∧
      Stored (h, σ.2) ((ts.set i b).set (ts.length - 1 - i) a) := by
  have hfirst : i < ts.length := by omega
  have hlast : ts.length - 1 - i < ts.length := by omega
  obtain ⟨h1, e1, s1, -⟩ := s.begins.set hfirst b
  obtain ⟨h2, e2, s2, -⟩ := s1.set (i := ts.length - 1 - i) (by rwa [List.length_set]) a
  refine ⟨h2, ?_, s2, ?_⟩
  · simp only [exchange, s.mirror_eq hfirst, s.begins.get hfirst, s.begins.get hlast, ha, hb, e1,
      e2, Option.bind_eq_bind, Option.bind_some, Option.pure_def]
  · rw [List.length_set, List.length_set]
    exact s.counted

/-- **The loop reverses what the vector holds, below its end.** -/
theorem exchanges_run (s : Stored σ ts) :
    ∃ h touched, σ.2.exchanges σ.1 = some (h, touched) ∧ Stored (h, σ.2) ts.reverse ∧
      ∀ i ∈ touched, i < ts.length := by
  have hhalf : (σ.2.size / 2).toNat = ts.length / 2 := by
    rw [UInt32.toNat_div, s.counted]
    rfl
  have hstep : ∀ (r : Arrays T × List Nat) (us : List T) (i : Nat) (a b : T),
      (Stored (r.1, σ.2) us ∧ ∀ j ∈ r.2, j < ts.length) → i < ts.length / 2 →
        us[i]? = some a → us[ts.length - 1 - i]? = some b →
          ∃ r', σ.2.exchange r i = some r' ∧
            Stored (r'.1, σ.2) ((us.set i b).set (ts.length - 1 - i) a) ∧
              ∀ j ∈ r'.2, j < ts.length := by
    rintro ⟨h, touched⟩ us i a b ⟨hs, hin⟩ hi ha hb
    have hlength : us.length = ts.length := hs.counted.symm.trans s.counted
    rw [← hlength] at hi hb ⊢
    obtain ⟨h', hcall, hs'⟩ := hs.exchange_spec touched hi ha hb
    refine ⟨_, hcall, hs', ?_⟩
    intro j hj
    rw [List.mem_append] at hj
    cases hj with
    | inl hold => exact hlength ▸ hin j hold
    | inr hnew =>
        rw [List.mem_pair] at hnew
        omega
  have hnone : ∀ j ∈ ([] : List Nat), j < ts.length := by simp
  have hstart : Stored (σ.1, σ.2) ts ∧ ∀ j ∈ ([] : List Nat), j < ts.length := ⟨s, hnone⟩
  obtain ⟨⟨h, touched⟩, hfold, hs, hin⟩ :=
    reverse_run (fun r us => Stored (r.1, σ.2) us ∧ ∀ j ∈ r.2, j < ts.length)
      (s := (σ.1, ([] : List Nat))) hstart (Nat.le_refl _) hstep
  rw [reverseFront_length] at hs
  refine ⟨h, touched, ?_, hs, hin⟩
  rw [exchanges, hhalf, hfold]

theorem isEmpty_iff (s : Stored σ ts) : σ.2.isEmpty = true ↔ ts ≠ [] := by
  rw [isEmpty, decide_eq_true_iff, Ne, size_eq_zero_iff s.counted]

end Stored

/-- **Reversal of a vector.** `reverse` does what it is for exactly when the vector holds the
same sequence from either end. -/
theorem vector_reverse_iff (s : Stored σ ts) : ReverseRight σ ts ↔ ts.reverse = ts := by
  cases ts with
  | nil =>
      refine iff_of_true ?_ rfl
      have hfalse : ¬ σ.2.isEmpty = true := mt s.isEmpty_iff.mp (not_not_intro rfl)
      obtain ⟨h, touched, hrun, hs, hin⟩ := s.exchanges_run
      refine ⟨(h, σ.2), touched, ?_, hs, rfl, rfl, hin⟩
      rw [reverse, if_neg hfalse, hrun]
      rfl
  | cons t ts =>
      have htrue : σ.2.isEmpty = true := s.isEmpty_iff.mpr (List.cons_ne_nil t ts)
      have hsame : σ.2.reverse σ.1 = some (σ, []) := if_pos htrue
      constructor
      · rintro ⟨τ, touched, hrun, hs, -⟩
        rw [hsame] at hrun
        cases hrun
        exact hs.unique s
      · intro heq
        refine ⟨σ, [], hsame, ?_, rfl, rfl, by simp⟩
        rw [heq]
        exact s

/-- The same from either end. -/
theorem vector_reverse_iff_palindrome :
    ∃ σ, (edits .release Nat).Reachable σ ∧ Stored σ [1, 2, 1] ∧ ReverseRight σ [1, 2, 1] := by
  obtain ⟨σ, hreach, s, -⟩ :=
    reachable_filled (T := Nat) .release (n := 3) (by decide) [1, 2, 1] (by decide)
  exact ⟨σ, hreach, s, (vector_reverse_iff s).mpr rfl⟩

/-- Two elements stay in their order. -/
theorem reverse_keeps_order :
    ∃ σ, (edits .release Nat).Reachable σ ∧ Stored σ [1, 2] ∧
      σ.2.reverse σ.1 = some (σ, []) ∧ ¬ ReverseRight σ [1, 2] := by
  obtain ⟨σ, hreach, s, -⟩ :=
    reachable_filled (T := Nat) .release (n := 2) (by decide) [1, 2] (by decide)
  have htrue : σ.2.isEmpty = true := s.isEmpty_iff.mpr (List.cons_ne_nil 1 [2])
  have hsame : σ.2.reverse σ.1 = some (σ, []) := if_pos htrue
  refine ⟨σ, hreach, s, hsame, ?_⟩
  rintro ⟨τ, touched, hrun, hs, -⟩
  rw [hsame] at hrun
  cases hrun
  have hboth : [2, 1] = [1, 2] := hs.unique s
  exact absurd hboth (by decide)

end LearnSpace.DataStructure.Vector
