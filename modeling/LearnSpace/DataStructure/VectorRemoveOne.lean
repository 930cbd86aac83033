import LearnSpace.Keel.Sweep
import LearnSpace.Keel.While
import LearnSpace.DataStructure.VectorRemove

/-!
# `removeOne` of the vector

`removeOne` tests the position and then scans from the front, whatever the position is. It
removes the element at the index it has come to, which moves the next one up to that index,
and goes on with the next index: so of neighbours every other one stays. When nothing in
front of the position is concerned and no two neighbours are, it does what it is for, and
otherwise only by chance (`vector_removeOne_iff`).
-/

namespace LearnSpace.DataStructure.Vector

open Keel

variable {T : Type} {σ τ : State T} {ts : List T}

theorem removeAt_size {v : Vector} {h : Arrays T} {pos : UInt32} {answer : Answer T}
    (hpos : pos.toNat < v.size.toNat) (hcall : v.removeAt h pos = some (τ, answer)) :
    τ.2.size.toNat + 1 = v.size.toNat := by
  have hguard : ¬ pos > v.size := by
    show ¬ v.size < pos
    rw [UInt32.lt_iff_toNat_lt]
    omega
  have hlt := v.size.toNat_lt
  have hlen : v.boundedLen pos 1 = 1 := by
    rw [boundedLen, if_neg]
    show ¬ v.size < 1 + pos
    rw [UInt32.lt_iff_toNat_lt, UInt32.toNat_add, UInt32.toNat_one]
    omega
  rw [removeAt, removeRange_eq hguard, hlen] at hcall
  obtain ⟨h', -, he⟩ := Option.bind_eq_some_iff.mp hcall
  cases he
  show (v.size - 1).toNat + 1 = _
  rw [toNat_pred rfl (Nat.zero_lt_of_lt hpos)]
  omega

/-- The loop of `removeOne`. -/
def removeLoop [BEq T] (t : T) (onlyOne : Bool) : While (State T × Nat) Unit (State T) where
  body s :=
    if s.2 < s.1.2.size.toNat then
      match s.1.1.get s.1.2.element s.2 with
      | none => .error ()
      | some u =>
        if u == t then
          match s.1.2.removeAt s.1.1 (UInt32.ofNat s.2) with
          | none => .error ()
          | some (σ, _) => if onlyOne then .ok (.inr σ) else .ok (.inl (σ, s.2 + 1))
        else .ok (.inl (s.1, s.2 + 1))
    else .ok (.inr s.1)
  measure s := s.1.2.size.toNat - s.2
  decreases := by
    intro s s' hbody
    split at hbody
    · rename_i hlt
      split at hbody
      · cases hbody
      · split at hbody
        · split at hbody
          · cases hbody
          · rename_i hcall
            split at hbody
            · cases hbody
            · cases hbody
              have hpos : (UInt32.ofNat s.2).toNat = s.2 :=
                UInt32.toNat_ofNat_of_lt' (Nat.lt_trans hlt s.1.2.size.toNat_lt)
              have hsize := removeAt_size (hpos.symm ▸ hlt) hcall
              dsimp only
              omega
        · cases hbody
          dsimp only
          omega
    · cases hbody

/-- `removeOne`. `t` comes as a `const T&`; it is taken for a value, which is not stored in
the vector itself. -/
def removeOne [BEq T] (v : Vector) (h : Arrays T) (t : T) (pos : UInt32) (onlyOne : Bool) :
    Option (State T × Answer T) := do
  if pos ≥ v.size then
    return ((h, v), .done)
  let σ ← ((removeLoop t onlyOne).run ((h, v), 0)).toOption
  return (σ, .done)

/-- What `removeOne` is for, in a vector that holds `ts`: the element is gone once or
everywhere from the position on, and nothing else; behind the end nothing changes. -/
def RemoveOneRight [BEq T] (σ : State T) (ts : List T) (t : T) (pos : UInt32) (onlyOne : Bool) :
    Prop :=
  ∃ τ, σ.2.removeOne σ.1 t pos onlyOne = some (τ, .done) ∧
    Stored τ (ts.take pos.toNat ++ minus t onlyOne (ts.drop pos.toNat)) ∧
    (ts.length ≤ pos.toNat → τ = σ)

namespace Stored

/-- One element is removed. -/
theorem removeAt_index {as bs : List T} {u : T} (s : Stored σ (as ++ u :: bs)) :
    ∃ τ, σ.2.removeAt σ.1 (UInt32.ofNat as.length) = some (τ, .done) ∧ Stored τ (as ++ bs) := by
  have hlt := σ.2.size.toNat_lt
  have hcounted := s.counted
  rw [List.length_append, List.length_cons] at hcounted
  have hpos : (UInt32.ofNat as.length).toNat = as.length :=
    UInt32.toNat_ofNat_of_lt' (show as.length < 2 ^ 32 by omega)
  have hin : (UInt32.ofNat as.length).toNat ≤ (as ++ u :: bs).length := by
    rw [hpos, List.length_append]
    omega
  have hsum : (UInt32.ofNat as.length).toNat + (1 : UInt32).toNat < 2 ^ 32 := by
    rw [hpos, UInt32.toNat_one]
    omega
  obtain ⟨⟨τ, hcall, s', -⟩, -⟩ := s.removeRange_within hin hsum
  refine ⟨τ, hcall, ?_⟩
  rwa [hpos, UInt32.toNat_one, List.take_left, ← List.drop_drop, List.drop_left] at s'

/-- At an element the loop looks at it. -/
theorem removeLoop_at {as bs : List T} {u : T} (s : Stored σ (as ++ u :: bs)) :
    as.length < σ.2.size.toNat ∧ σ.1.get σ.2.element as.length = some u := by
  constructor
  · rw [s.counted, List.length_append, List.length_cons]
    omega
  · rw [s.begins.get (by simp), List.getElem?_append_right (Nat.le_refl _), Nat.sub_self]
    rfl

/-- A vector holds one sequence. -/
theorem unique (s : Stored σ ts) {us : List T} (s' : Stored σ us) : ts = us := by
  have hlength : ts.length = us.length := s.counted.symm.trans s'.counted
  refine List.ext_getElem hlength (fun i hi hi' => ?_)
  have hget := s.begins.get hi
  rw [s'.begins.get hi', List.getElem?_eq_getElem hi, List.getElem?_eq_getElem hi'] at hget
  exact (Option.some.inj hget).symm

end Stored

variable [DecidableEq T] {t : T} {onlyOne : Bool}

/-- What the scan leaves of a sequence. -/
def scanned (t : T) (onlyOne : Bool) (ts : List T) : List T :=
  if onlyOne then ts.erase t else sweep t ts

theorem scanned_cons_ne {u : T} (hu : u ≠ t) (bs : List T) :
    scanned t onlyOne (u :: bs) = u :: scanned t onlyOne bs := by
  cases onlyOne with
  | true => exact List.erase_cons_tail (by simpa using hu)
  | false => exact sweep_cons_ne hu bs

theorem scanned_true_self (bs : List T) : scanned t true (t :: bs) = bs :=
  List.erase_cons_head t bs

theorem scanned_false_singleton : scanned t false [t] = [] := sweep_singleton

theorem scanned_false_cons (y : T) (ys : List T) :
    scanned t false (t :: y :: ys) = y :: scanned t false ys := sweep_cons_cons y ys

/-- When the scan of a sequence in two parts is as good as one of the second: in front there
are no `t` but a run of them at the end. The first `t` to go is as good as the first behind
when the run goes on there. Of all of them half are left, so the run must go on with as many
or with one more, and no two behind it may be neighbours. -/
def Excused (t : T) (onlyOne : Bool) (front back : List T) : Prop :=
  ∃ as p q bs, front = as ++ List.replicate p t ∧ t ∉ as ∧
    back = List.replicate q t ++ bs ∧ bs.head? ≠ some t ∧
    if onlyOne then p = 0 ∨ 0 < q else (q = p ∨ q = p + 1) ∧ Apart t bs

theorem scanned_iff (front back : List T) :
    scanned t onlyOne (front ++ back) = front ++ minus t onlyOne back ↔
      Excused t onlyOne front back := by
  cases onlyOne with
  | true => exact erase_append_iff
  | false => exact sweep_iff

namespace Stored

/-- Behind the last element the loop ends. -/
theorem removeLoop_end {i : Nat} (s : Stored σ ts) (hi : ts.length ≤ i) :
    (removeLoop t onlyOne).run (σ, i) = .ok σ := by
  apply While.run_leave
  have hout : ¬ i < σ.2.size.toNat := by
    rw [s.counted]
    omega
  simp only [removeLoop, if_neg hout]

/-- Another element is passed. -/
theorem removeLoop_keep {as bs : List T} {u : T} (s : Stored σ (as ++ u :: bs)) (hu : u ≠ t) :
    (removeLoop t onlyOne).run (σ, as.length) =
      (removeLoop t onlyOne).run (σ, as.length + 1) := by
  obtain ⟨hlt, hget⟩ := s.removeLoop_at
  have hbeq : (u == t) = false := beq_eq_false_iff_ne.mpr hu
  apply While.run_next
  simp only [removeLoop, if_pos hlt, hget, hbeq, Bool.false_eq_true, if_false]

/-- The element is removed, and the loop is left or goes on with the next index. -/
theorem removeLoop_take {as bs : List T} (s : Stored σ (as ++ t :: bs)) :
    ∃ τ, Stored τ (as ++ bs) ∧ (removeLoop t true).run (σ, as.length) = .ok τ ∧
      (removeLoop t false).run (σ, as.length) =
        (removeLoop t false).run (τ, as.length + 1) := by
  obtain ⟨hlt, hget⟩ := s.removeLoop_at
  obtain ⟨τ, hremove, hτ⟩ := s.removeAt_index
  refine ⟨τ, hτ, ?_, ?_⟩
  · apply While.run_leave
    simp only [removeLoop, if_pos hlt, hget, beq_self_eq_true, if_true, hremove]
  · apply While.run_next
    simp only [removeLoop, if_pos hlt, hget, beq_self_eq_true, if_true, hremove,
      Bool.false_eq_true, if_false]

/-- The loop at an index: it scans what lies behind. -/
theorem removeLoop_run (t : T) (onlyOne : Bool) :
    ∀ {n : Nat} {as bs : List T} {σ : State T}, bs.length ≤ n → Stored σ (as ++ bs) →
      ∃ τ, (removeLoop t onlyOne).run (σ, as.length) = .ok τ ∧
        Stored τ (as ++ scanned t onlyOne bs) := by
  intro n
  induction n with
  | zero =>
      intro as bs σ hbs s
      obtain rfl : bs = [] := List.length_eq_zero_iff.mp (Nat.le_zero.mp hbs)
      refine ⟨σ, s.removeLoop_end (by rw [List.append_nil]), ?_⟩
      cases onlyOne <;> exact s
  | succ n ih =>
      intro as bs σ hbs s
      cases bs with
      | nil => exact ih (Nat.zero_le n) s
      | cons u bs =>
          rw [List.length_cons] at hbs
          by_cases hu : u = t
          · subst hu
            obtain ⟨τ, hτ, hleave, hnext⟩ := s.removeLoop_take
            cases onlyOne with
            | true =>
                refine ⟨τ, hleave, ?_⟩
                rwa [scanned_true_self]
            | false =>
                cases bs with
                | nil =>
                    refine ⟨τ, ?_, ?_⟩
                    · rw [hnext, hτ.removeLoop_end (by simp)]
                    · rwa [scanned_false_singleton]
                | cons y ys =>
                    -- the element that has moved up is passed
                    have hτ' : Stored τ ((as ++ [y]) ++ ys) := by simpa using hτ
                    obtain ⟨τ', hrun, s'⟩ := ih (by rw [List.length_cons] at hbs; omega) hτ'
                    refine ⟨τ', ?_, ?_⟩
                    · rw [hnext, ← hrun, List.length_append, List.length_singleton]
                    · rw [scanned_false_cons]
                      simpa using s'
          · have s' : Stored σ ((as ++ [u]) ++ bs) := by simpa using s
            obtain ⟨τ, hrun, hτ⟩ := ih (by omega) s'
            rw [List.length_append, List.length_singleton] at hrun
            refine ⟨τ, (s.removeLoop_keep hu).trans hrun, ?_⟩
            rw [scanned_cons_ne hu]
            simpa using hτ

/-- What the method leaves. -/
theorem removeOne_run (s : Stored σ ts) (t : T) (onlyOne : Bool) {pos : UInt32}
    (hpos : pos.toNat < ts.length) :
    ∃ τ, σ.2.removeOne σ.1 t pos onlyOne = some (τ, .done) ∧ Stored τ (scanned t onlyOne ts) := by
  have hin : ¬ pos ≥ σ.2.size := by
    rw [ge_size_iff s.counted]
    omega
  have s' : Stored σ ([] ++ ts) := s
  obtain ⟨τ, hrun, hτ⟩ := removeLoop_run t onlyOne (Nat.le_refl _) s'
  refine ⟨τ, ?_, hτ⟩
  have hrun' : (removeLoop t onlyOne).run ((σ.1, σ.2), 0) = .ok τ := hrun
  simp only [removeOne, hin, if_false, hrun', Except.toOption, Option.bind_eq_bind,
    Option.bind_some, Option.pure_def]

end Stored

/-- **Removal by value from a vector.** `removeOne` does what it is for exactly when the
position lies behind the end, or the scan from the front is as good as one from the
position. -/
theorem vector_removeOne_iff (s : Stored σ ts) (t : T) (pos : UInt32) (onlyOne : Bool) :
    RemoveOneRight σ ts t pos onlyOne ↔
      ts.length ≤ pos.toNat ∨ Excused t onlyOne (ts.take pos.toNat) (ts.drop pos.toNat) := by
  by_cases hpos : pos.toNat < ts.length
  · rw [or_iff_right (Nat.not_le_of_lt hpos), ← scanned_iff, List.take_append_drop]
    obtain ⟨τ, hrun, hτ⟩ := s.removeOne_run t onlyOne hpos
    constructor
    · rintro ⟨τ', hrun', s', -⟩
      rw [hrun] at hrun'
      cases hrun'
      exact hτ.unique s'
    · intro he
      exact ⟨τ, hrun, he ▸ hτ, fun hle => absurd hle (Nat.not_le_of_lt hpos)⟩
  · rw [Nat.not_lt] at hpos
    refine iff_of_true ⟨σ, ?_, ?_, fun _ => rfl⟩ (.inl hpos)
    · rw [removeOne, if_pos ((ge_size_iff s.counted pos).mpr hpos)]
      rfl
    · rw [List.take_of_length_le hpos, List.drop_eq_nil_of_le hpos, minus_nil, List.append_nil]
      exact s

/-- Elements apart from each other are all removed. -/
theorem vector_removeOne_iff_apart :
    ∃ σ, (edits .release Nat).Reachable σ ∧ Stored σ [1, 2, 1] ∧
      RemoveOneRight σ [1, 2, 1] 1 0 false := by
  obtain ⟨σ, hreach, s, -⟩ :=
    reachable_filled (T := Nat) .release (n := 3) (by decide) [1, 2, 1] (by decide)
  refine ⟨σ, hreach, s, (vector_removeOne_iff s 1 0 false).mpr (.inr ?_)⟩
  exact ⟨[], 0, 1, [2, 1], rfl, List.not_mem_nil, rfl, by decide, .inr rfl, by decide⟩

/-- Of two neighbours one is left. -/
theorem removeOne_skips :
    ∃ σ, (edits .release Nat).Reachable σ ∧ Stored σ [1, 1] ∧
      (∃ τ, σ.2.removeOne σ.1 1 0 false = some (τ, .done) ∧ Stored τ [1]) ∧
      ¬ RemoveOneRight σ [1, 1] 1 0 false := by
  obtain ⟨σ, hreach, s, -⟩ :=
    reachable_filled (T := Nat) .release (n := 2) (by decide) [1, 1] (by decide)
  obtain ⟨τ, hrun, hτ⟩ := s.removeOne_run 1 false (show (0 : UInt32).toNat < _ by decide)
  have hleft : Stored τ [1] := hτ
  refine ⟨σ, hreach, s, ⟨τ, hrun, hleft⟩, ?_⟩
  rintro ⟨τ', hrun', s', -⟩
  rw [hrun] at hrun'
  cases hrun'
  have hcounted : ([] : List Nat) = [1] := s'.unique hleft
  cases hcounted

end LearnSpace.DataStructure.Vector
