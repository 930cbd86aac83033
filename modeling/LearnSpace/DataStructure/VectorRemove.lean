import LearnSpace.DataStructure.VectorGrowth

/-!
# `removeAt` of a range of the vector

`removeAt` bounds the length of the range by comparing `len + pos`, a sum of 32 bits, with
the size. A length so large that the sum wraps is not bounded: the range then ends in front
of its beginning, and what lies behind that end is moved to the back, over the end of the
elements. Where the sum does not wrap the range is removed (`vector_removeRange_iff`).
-/

namespace LearnSpace.DataStructure.Vector

open Keel

variable {T : Type} {σ τ : State T} {ts : List T}

/-- The length of the range as the code bounds it. -/
def boundedLen (v : Vector) (pos len : UInt32) : UInt32 :=
  if len + pos > v.size then v.size - pos else len

/-- The end of the range in the code. -/
def rangeEnd (v : Vector) (pos len : UInt32) : UInt32 := pos + v.boundedLen pos len

/-- How many elements the `memmove` moves. -/
def movedSize (v : Vector) (pos len : UInt32) : UInt32 := v.size - v.rangeEnd pos len

/-- What `removeAt` of a range is for, in a vector that holds `ts`: the range is gone, the
size is that of what is left, and only old elements are read and written; behind the end
nothing changes. -/
def RemoveRangeRight (σ : State T) (ts : List T) (pos len : UInt32) : Prop :=
  (∃ τ, σ.2.removeRange σ.1 pos len = some (τ, .done) ∧
    Stored τ (ts.take pos.toNat ++ ts.drop (pos.toNat + len.toNat)) ∧
    (ts.length ≤ pos.toNat → τ = σ)) ∧
  (pos.toNat ≤ ts.length →
    (σ.2.rangeEnd pos len).toNat + (σ.2.movedSize pos len).toNat ≤ ts.length ∧
    pos.toNat + (σ.2.movedSize pos len).toNat ≤ ts.length)

/-- The method behind its guard. -/
theorem removeRange_eq {v : Vector} {h : Arrays T} {pos len : UInt32} (hpos : ¬ pos > v.size) :
    v.removeRange h pos len =
      (h.move v.element pos.toNat v.element (v.rangeEnd pos len).toNat
        (v.movedSize pos len).toNat).bind
        (fun h => some ((h, { v with size := v.size - v.boundedLen pos len }), .done)) := by
  rw [removeRange, if_neg hpos]
  rfl

namespace Stored

variable {pos len : UInt32}

/-- Where the sum does not wrap the range ends inside the elements. -/
theorem range_eq (s : Stored σ ts) (hpos : pos.toNat ≤ ts.length)
    (hsum : pos.toNat + len.toNat < 2 ^ 32) :
    (σ.2.boundedLen pos len).toNat = min len.toNat (ts.length - pos.toNat) ∧
      (σ.2.rangeEnd pos len).toNat = min (pos.toNat + len.toNat) ts.length ∧
      (σ.2.movedSize pos len).toNat = ts.length - min (pos.toNat + len.toNat) ts.length := by
  have hbound := UInt32.toNat_lt σ.2.size
  have hcounted := s.counted
  have hlen : (σ.2.boundedLen pos len).toNat = min len.toNat (ts.length - pos.toNat) := by
    have hover : len + pos > σ.2.size ↔ ts.length < pos.toNat + len.toNat := by
      show σ.2.size < len + pos ↔ _
      rw [UInt32.lt_iff_toNat_lt, UInt32.toNat_add, hcounted]
      omega
    rw [boundedLen]
    split
    · rename_i hgt
      have hgt' := hover.mp hgt
      rw [UInt32.toNat_sub]
      omega
    · rename_i hle
      have hle' := mt hover.mpr hle
      omega
  have hend : (σ.2.rangeEnd pos len).toNat = min (pos.toNat + len.toNat) ts.length := by
    rw [rangeEnd, UInt32.toNat_add, hlen]
    omega
  refine ⟨hlen, hend, ?_⟩
  rw [movedSize, UInt32.toNat_sub, hend]
  omega

/-- Where the sum does not wrap the range is removed. -/
theorem removeRange_within (s : Stored σ ts) (hpos : pos.toNat ≤ ts.length)
    (hsum : pos.toNat + len.toNat < 2 ^ 32) : RemoveRangeRight σ ts pos len := by
  obtain ⟨hlen, hend, hmoved⟩ := s.range_eq hpos hsum
  have hguard : ¬ pos > σ.2.size := by
    show ¬ σ.2.size < pos
    rw [UInt32.lt_iff_toNat_lt, s.counted]
    omega
  have hcap := s.begins.length_le
  obtain ⟨h', hmove, hbegins, -⟩ :=
    s.begins.rejoin (j := min (pos.toNat + len.toNat) ts.length) hpos (Nat.min_le_right _ _)
      (by omega)
  have hdrop : ts.drop (min (pos.toNat + len.toNat) ts.length) =
      ts.drop (pos.toNat + len.toNat) := by
    rw [← List.drop_eq_drop_min]
  rw [hdrop] at hbegins
  refine ⟨⟨(h', { σ.2 with size := σ.2.size - σ.2.boundedLen pos len }), ?_, ⟨hbegins, ?_⟩, ?_⟩,
    fun _ => ?_⟩
  · rw [removeRange_eq hguard, hend, hmoved, hmove, Option.bind_some]
  · show (σ.2.size - σ.2.boundedLen pos len).toNat = _
    have hbound := UInt32.toNat_lt σ.2.size
    have hcounted := s.counted
    rw [UInt32.toNat_sub, hlen, List.length_append, List.length_take, List.length_drop]
    omega
  · intro hle
    have hzero : σ.2.boundedLen pos len = 0 := by
      rw [eq_zero_iff_toNat, hlen]
      omega
    have hnone : ts.length - min (pos.toNat + len.toNat) ts.length = 0 := by omega
    rw [hnone] at hmove
    obtain rfl : σ.1 = h' := Option.some.inj ((if_pos rfl).symm.trans hmove)
    rw [hzero, UInt32.sub_zero]
  · rw [hend, hmoved]
    omega

/-- Where the sum wraps elements are moved behind the old ones. -/
theorem removeRange_wraps (s : Stored σ ts) (hpos : pos.toNat ≤ ts.length)
    (hsum : 2 ^ 32 ≤ pos.toNat + len.toNat) :
    ts.length < pos.toNat + (σ.2.movedSize pos len).toNat := by
  have hbound := UInt32.toNat_lt σ.2.size
  have hlen := UInt32.toNat_lt len
  have hcounted := s.counted
  have hwrap : (len + pos).toNat = pos.toNat + len.toNat - 2 ^ 32 := by
    rw [UInt32.toNat_add]
    omega
  have hkeep : σ.2.boundedLen pos len = len := by
    rw [boundedLen, if_neg]
    show ¬ σ.2.size < len + pos
    rw [UInt32.lt_iff_toNat_lt, hwrap]
    omega
  rw [movedSize, rangeEnd, hkeep, UInt32.add_comm, UInt32.toNat_sub, hwrap]
  omega

end Stored

/-- **Removal of a range of a vector.** `removeAt` of a range does what it is for exactly when
it begins behind the end, or the sum of its position and its length does not wrap. -/
theorem vector_removeRange_iff (s : Stored σ ts) (pos len : UInt32) :
    RemoveRangeRight σ ts pos len ↔
      ts.length < pos.toNat ∨ pos.toNat + len.toNat < 2 ^ 32 := by
  by_cases hpos : pos.toNat ≤ ts.length
  · rw [or_iff_right (Nat.not_lt.mpr hpos)]
    constructor
    · rintro ⟨-, hwithin⟩
      by_contra hsum
      have hover := s.removeRange_wraps hpos (Nat.not_lt.mp hsum)
      exact absurd (hwithin hpos).2 (Nat.not_le_of_lt hover)
    · exact s.removeRange_within hpos
  · rw [Nat.not_le] at hpos
    refine iff_of_true ?_ (.inl hpos)
    have hguard : pos > σ.2.size := by
      show σ.2.size < pos
      rw [UInt32.lt_iff_toNat_lt, s.counted]
      exact hpos
    refine ⟨⟨σ, ?_, ?_, fun _ => rfl⟩, fun hle => absurd hpos (Nat.not_lt.mpr hle)⟩
    · rw [removeRange, if_pos hguard]
      rfl
    · rw [List.take_of_length_le (Nat.le_of_lt hpos), List.drop_eq_nil_of_le (by omega),
        List.append_nil]
      exact s

/-- From three elements everything behind the first is removed with a length that suffices,
but not with the largest one. -/
theorem vector_removeRange_iff_three :
    ∃ σ, (edits .release Nat).Reachable σ ∧ Stored σ [1, 2, 3] ∧
      RemoveRangeRight σ [1, 2, 3] 1 0xFFFFFFFE ∧
      ¬ RemoveRangeRight σ [1, 2, 3] 1 0xFFFFFFFF := by
  obtain ⟨σ, hreach, s, -⟩ :=
    reachable_filled (T := Nat) .release (n := 4) (by decide) [1, 2, 3] (by decide)
  refine ⟨σ, hreach, s, (vector_removeRange_iff s 1 0xFFFFFFFE).mpr (by decide), ?_⟩
  rw [vector_removeRange_iff s 1 0xFFFFFFFF]
  decide

/-- Asked to remove up to the end with the largest length, the code moves three elements to
the back. -/
theorem removeRange_moves_back :
    ∃ σ, (edits .release Nat).Reachable σ ∧ Stored σ [1, 2, 3] ∧
      (σ.2.movedSize 1 0xFFFFFFFF).toNat = 3 ∧ ¬ RemoveRangeRight σ [1, 2, 3] 1 0xFFFFFFFF := by
  obtain ⟨σ, hreach, s, -⟩ :=
    reachable_filled (T := Nat) .release (n := 4) (by decide) [1, 2, 3] (by decide)
  have hsize : σ.2.size = 3 := UInt32.toNat_inj.mp s.counted
  have hmoved : (σ.2.movedSize 1 0xFFFFFFFF).toNat = 3 := by
    rw [movedSize, rangeEnd, boundedLen, hsize]
    rfl
  refine ⟨σ, hreach, s, hmoved, ?_⟩
  rintro ⟨-, hwithin⟩
  have hover := (hwithin (by decide)).2
  rw [hmoved] at hover
  exact absurd hover (by decide)

end LearnSpace.DataStructure.Vector
