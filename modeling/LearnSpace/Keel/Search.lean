import Mathlib.Data.List.Infix

/-!
# The first occurrence of a word

`firstOcc w xs` is the first position of `xs` at which the word `w` stands.
The lemmas say where an occurrence lies, that none appears before the first
letter of the word does, and that a new one at the end of a growing list ends
with the letter just added.

`scan w mem n` is the loop that looks for it in a memory: it compares letter
by letter at the positions below `n`, and runs off the memory when a letter it
asks for is not there. `scan_eq` says when it finds the first occurrence.
-/

namespace Keel

variable {α : Type*} [DecidableEq α] {w xs ys : List α} {c b : α} {i : Nat}

/-- The first position at which `w` stands in a list. -/
def firstOcc (w : List α) : List α → Option Nat
  | [] => if w = [] then some 0 else none
  | x :: xs => if w <+: x :: xs then some 0 else (firstOcc w xs).map (· + 1)

/-- The word stands where it is found. -/
theorem prefix_of_firstOcc (h : firstOcc w xs = some i) : w <+: xs.drop i := by
  induction xs generalizing i with
  | nil =>
      rw [firstOcc] at h
      split at h
      · rename_i hw
        rw [hw]
        exact List.nil_prefix
      · cases h
  | cons x xs ih =>
      rw [firstOcc] at h
      split at h
      · rename_i hw
        cases h
        exact hw
      · obtain ⟨j, hj, rfl⟩ := Option.map_eq_some_iff.mp h
        exact ih hj

/-- An occurrence lies inside the list. -/
theorem firstOcc_le (h : firstOcc w xs = some i) : i + w.length ≤ xs.length := by
  induction xs generalizing i with
  | nil =>
      rw [firstOcc] at h
      split at h
      · rename_i hw
        cases h
        rw [hw]
        exact Nat.le_refl _
      · cases h
  | cons x xs ih =>
      rw [firstOcc] at h
      split at h
      · rename_i hw
        cases h
        rw [Nat.zero_add]
        exact hw.length_le
      · obtain ⟨j, hj, rfl⟩ := Option.map_eq_some_iff.mp h
        have := ih hj
        rw [List.length_cons]
        omega

/-- What is found is the word, and it does not stand before. -/
theorem firstOcc_eq_some_iff :
    firstOcc w xs = some i ↔ w <+: xs.drop i ∧ ∀ j, j < i → ¬ w <+: xs.drop j := by
  induction xs generalizing i with
  | nil =>
      simp only [firstOcc, List.drop_nil, List.prefix_nil]
      by_cases hw : w = []
      · cases i with
        | zero => simp [hw]
        | succ i =>
            simp only [hw, if_true, Option.some.injEq, true_and, not_true, imp_false, Nat.not_lt]
            exact iff_of_false (Nat.zero_ne_add_one i)
              (fun h => absurd (h 0) (Nat.not_succ_le_zero i))
      · simp [hw]
  | cons x xs ih =>
      rw [firstOcc]
      by_cases hw : w <+: x :: xs
      · rw [if_pos hw]
        constructor
        · intro h
          cases h
          exact ⟨hw, fun j hj => absurd hj (Nat.not_lt_zero j)⟩
        · rintro ⟨-, hbefore⟩
          cases i with
          | zero => rfl
          | succ i => exact absurd hw (hbefore 0 (Nat.succ_pos i))
      · rw [if_neg hw]
        cases i with
        | zero =>
            refine iff_of_false (by simp) ?_
            rintro ⟨hfound, -⟩
            exact hw hfound
        | succ i =>
            rw [Option.map_eq_some_iff]
            constructor
            · rintro ⟨j, hj, hsucc⟩
              cases hsucc
              obtain ⟨hfound, hbefore⟩ := ih.mp hj
              refine ⟨hfound, fun j hj => ?_⟩
              cases j with
              | zero => exact hw
              | succ j => exact hbefore j (Nat.lt_of_succ_lt_succ hj)
            · rintro ⟨hfound, hbefore⟩
              exact ⟨i, ih.mpr ⟨hfound, fun j hj => hbefore (j + 1) (Nat.succ_lt_succ hj)⟩, rfl⟩

/-- What is not found stands nowhere. -/
theorem firstOcc_eq_none_iff : firstOcc w xs = none ↔ ∀ i, ¬ w <+: xs.drop i := by
  constructor
  · intro hnone i
    -- the first position it stands at would have been found
    induction i using Nat.strongRecOn with
    | ind i ih =>
        intro hfound
        have hsome := firstOcc_eq_some_iff.mpr ⟨hfound, ih⟩
        rw [hnone] at hsome
        cases hsome
  · intro h
    cases hocc : firstOcc w xs with
    | none => rfl
    | some i => exact absurd (prefix_of_firstOcc hocc) (h i)
/-- Behind letters that cannot begin it the word is found where it stands. -/
theorem firstOcc_append (h : c ∉ xs) :
    firstOcc (c :: w) (xs ++ c :: w ++ ys) = some xs.length := by
  induction xs with
  | nil =>
      rw [List.nil_append, List.cons_append, firstOcc,
        if_pos (List.cons_prefix_cons.mpr ⟨rfl, List.prefix_append w ys⟩)]
      rfl
  | cons x xs ih =>
      obtain ⟨hne, hxs⟩ := not_or.mp (List.mem_cons.not.mp h)
      rw [List.cons_append, List.cons_append, firstOcc,
        if_neg (fun hp => hne (List.cons_prefix_cons.mp hp).1), ih hxs]
      rfl

/-- Letters behind an occurrence do not matter. -/
theorem firstOcc_append_right (h : firstOcc w xs = some i) : firstOcc w (xs ++ ys) = some i := by
  induction xs generalizing i with
  | nil =>
      rw [firstOcc] at h
      split at h
      · rename_i hw
        cases h
        cases ys with
        | nil => exact if_pos hw
        | cons y ys => exact if_pos (hw ▸ List.nil_prefix)
      · cases h
  | cons x xs ih =>
      rw [firstOcc] at h
      rw [List.cons_append, firstOcc]
      split at h
      · rename_i hw
        cases h
        exact if_pos (hw.trans (List.prefix_append (x :: xs) ys))
      · -- `xs` is long enough for the word, so `ys` cannot complete it here
        rename_i hw
        obtain ⟨j, hj, rfl⟩ := Option.map_eq_some_iff.mp h
        have hle : w.length ≤ (x :: xs).length := by
          have := firstOcc_le hj
          rw [List.length_cons]
          omega
        have hw' : ¬ w <+: x :: (xs ++ ys) := fun hw' =>
          hw (List.prefix_of_prefix_length_le hw' (List.prefix_append (x :: xs) ys) hle)
        rw [if_neg hw', ih hj]
        rfl

/-- An occurrence that one more letter completes ends with that letter. -/
theorem firstOcc_concat (hnone : firstOcc w xs = none) (h : firstOcc w (xs ++ [b]) = some i) :
    i + w.length = xs.length + 1 := by
  induction xs generalizing i with
  | nil =>
      have hle := firstOcc_le h
      rw [firstOcc] at hnone
      split at hnone
      · cases hnone
      · rename_i hw
        have : 0 < w.length := List.length_pos_iff.mpr hw
        simp only [List.nil_append, List.length_singleton] at hle
        rw [List.length_nil]
        omega
  | cons x xs ih =>
      have hle := firstOcc_le h
      rw [firstOcc] at hnone
      split at hnone
      · cases hnone
      · rename_i hw
        rw [List.cons_append, firstOcc] at h
        split at h
        · -- found at the front, but not before the letter came
          rename_i hw'
          cases h
          have hlen : ¬ w.length ≤ (x :: xs).length := fun hlen =>
            hw (List.prefix_of_prefix_length_le hw' (List.prefix_append (x :: xs) [b]) hlen)
          simp only [List.length_append, List.length_cons, List.length_nil] at hle hlen ⊢
          omega
        · obtain ⟨j, hj, rfl⟩ := Option.map_eq_some_iff.mp h
          have := ih (Option.map_eq_none_iff.mp hnone) hj
          rw [List.length_cons]
          omega

/-! ## The scanning loop -/

/-- Compare the letters of `w` with those at the front of a memory, up to the
first difference; `none` when the memory ends before. -/
def isSame : List α → List α → Option Bool
  | _, [] => some true
  | [], _ :: _ => none
  | x :: mem, c :: w => if x = c then isSame mem w else some false

/-- Look for `w` at the first `n` positions of a memory. -/
def scan (w : List α) : List α → Nat → Option (Option Nat)
  | _, 0 => some none
  | [], _ + 1 => if w = [] then some (some 0) else none
  | x :: mem, n + 1 => do
    if ← isSame (x :: mem) w then
      return some 0
    else
      return (← scan w mem n).map (· + 1)

theorem isSame_eq {w xs : List α} (ys : List α) (h : w.length ≤ xs.length) :
    isSame (xs ++ ys) w = some (decide (w <+: xs)) := by
  induction w generalizing xs with
  | nil => simp [isSame]
  | cons c w ih =>
      cases xs with
      | nil => cases h
      | cons x xs =>
          rw [List.cons_append, isSame, ih (Nat.le_of_succ_le_succ h)]
          by_cases hx : x = c
          · simp [hx]
          · simp [hx, Ne.symm hx]

/-- As long as the last word compared ends where `xs` does, the loop finds the
first occurrence in `xs`. -/
theorem scan_eq {n : Nat} (hw : w ≠ []) (h : n + w.length = xs.length + 1) :
    scan w (xs ++ ys) n = some (firstOcc w xs) := by
  induction n generalizing xs with
  | zero =>
      have hnone : firstOcc w xs = none := by
        cases hocc : firstOcc w xs with
        | none => rfl
        | some i =>
            have := firstOcc_le hocc
            omega
      rw [scan, hnone]
  | succ n ih =>
      have hpos : 0 < w.length := List.length_pos_iff.mpr hw
      cases xs with
      | nil =>
          rw [List.length_nil] at h
          omega
      | cons x xs =>
          rw [List.length_cons] at h
          have hle : w.length ≤ (x :: xs).length := by
            rw [List.length_cons]
            omega
          have hsame := isSame_eq ys hle
          -- the comparison at the front ends inside `xs`
          rw [List.cons_append] at hsame ⊢
          rw [scan, hsame, firstOcc, ih (by omega)]
          by_cases hx : w <+: x :: xs
          · simp [hx]
          · simp [hx]

/-- A comparison that comes to an end is right about the memory. -/
theorem isSame_some {mem : List α} {r : Bool} (h : isSame mem w = some r) :
    r = decide (w <+: mem) := by
  induction w generalizing mem with
  | nil =>
      rw [isSame] at h
      cases h
      simp
  | cons c w ih =>
      cases mem with
      | nil => cases h
      | cons x mem =>
          rw [isSame] at h
          split at h
          · rename_i hx
            rw [ih h, hx]
            simp
          · rename_i hx
            cases h
            simp [Ne.symm hx]

/-- What the loop finds is the first occurrence, at a position looked at. -/
theorem scan_found {mem : List α} {n : Nat} (hw : w ≠ []) (h : scan w mem n = some (some i)) :
    i < n ∧ firstOcc w mem = some i := by
  induction mem generalizing n i with
  | nil =>
      cases n with
      | zero => cases h
      | succ n => rw [scan, if_neg hw] at h; cases h
  | cons x mem ih =>
      cases n with
      | zero => cases h
      | succ n =>
          rw [scan] at h
          cases hsame : isSame (x :: mem) w with
          | none => rw [hsame] at h; cases h
          | some r =>
              have hr := isSame_some hsame
              rw [hsame] at h
              cases r with
              | true =>
                  cases h
                  exact ⟨Nat.zero_lt_succ n, if_pos (of_decide_eq_true hr.symm)⟩
              | false =>
                  cases hscan : scan w mem n with
                  | none => simp [hscan] at h
                  | some o =>
                      cases o with
                      | none => simp [hscan] at h
                      | some j =>
                          obtain ⟨hj, hocc⟩ := ih hscan
                          simp [hscan] at h
                          rw [firstOcc, if_neg (of_decide_eq_false hr.symm), hocc, ← h]
                          exact ⟨Nat.succ_lt_succ hj, rfl⟩

/-- A loop that found nothing has looked at no occurrence. -/
theorem scan_notFound {mem : List α} {n : Nat} (h : scan w mem n = some none)
    (hocc : firstOcc w mem = some i) : n ≤ i := by
  induction mem generalizing n i with
  | nil =>
      cases n with
      | zero => exact Nat.zero_le i
      | succ n =>
          rw [scan] at h
          split at h <;> cases h
  | cons x mem ih =>
      cases n with
      | zero => exact Nat.zero_le i
      | succ n =>
          rw [scan] at h
          cases hsame : isSame (x :: mem) w with
          | none => rw [hsame] at h; cases h
          | some r =>
              have hr := isSame_some hsame
              rw [hsame] at h
              cases r with
              | true => cases h
              | false =>
                  rw [firstOcc, if_neg (of_decide_eq_false hr.symm)] at hocc
                  obtain ⟨j, hj, rfl⟩ := Option.map_eq_some_iff.mp hocc
                  cases hscan : scan w mem n with
                  | none => simp [hscan] at h
                  | some o =>
                      cases o with
                      | none => exact Nat.succ_le_succ (ih hscan hj)
                      | some j => simp [hscan] at h

/-- For two letters the loop may look at every position of `xs`, unless `xs`
ends in the first and the second, or nothing, comes next. -/
theorem scan_whole {d : α} (h : xs.getLast? = some c → ∃ y ∈ ys.head?, y ≠ d) :
    scan [c, d] (xs ++ ys) xs.length = some (firstOcc [c, d] xs) := by
  induction xs with
  | nil =>
      rw [List.length_nil, scan]
      rfl
  | cons x xs ih =>
      cases xs with
      | nil =>
          by_cases hx : x = c
          · obtain ⟨y, hy, hne⟩ := h (by rw [hx]; rfl)
            obtain ⟨ys', rfl⟩ : ∃ ys', ys = y :: ys' := List.head?_eq_some_iff.mp hy
            simp [scan, isSame, firstOcc, hx, hne]
          · simp [scan, isSame, firstOcc, hx]
      | cons y ys' =>
          have hle : [c, d].length ≤ (x :: y :: ys').length := by simp
          have hsame := isSame_eq ys hle
          rw [List.getLast?_cons_cons] at h
          rw [List.cons_append] at hsame ⊢
          rw [List.length_cons, scan, hsame, firstOcc, ih h]
          by_cases hw : [c, d] <+: x :: y :: ys' <;> simp [hw]

/-- A loop that is to look past the end of a memory without the first letter
of the word runs off it. -/
theorem scan_off {n : Nat} (hc : c ∉ xs) (h : xs.length < n) : scan (c :: w) xs n = none := by
  induction xs generalizing n with
  | nil =>
      cases n with
      | zero => cases h
      | succ n => rfl
  | cons x xs ih =>
      obtain ⟨hne, hxs⟩ := not_or.mp (List.mem_cons.not.mp hc)
      cases n with
      | zero => cases h
      | succ n =>
          rw [scan, isSame, if_neg (Ne.symm hne), ih hxs (Nat.lt_of_succ_lt_succ h)]
          rfl

/-- A loop over a whole memory without the word runs off it when the memory
ends in the first of two letters. -/
theorem scan_overrun {d : α} (hlast : xs.getLast? = some c)
    (hnone : firstOcc [c, d] xs = none) : scan [c, d] xs xs.length = none := by
  induction xs with
  | nil => cases hlast
  | cons x xs ih =>
      cases xs with
      | nil =>
          cases hlast
          simp [scan, isSame]
      | cons y ys =>
          rw [firstOcc] at hnone
          split at hnone
          · cases hnone
          · rename_i hw
            have hle : [c, d].length ≤ (x :: y :: ys).length := by simp
            have hsame := isSame_eq [] hle
            rw [List.append_nil] at hsame
            rw [List.getLast?_cons_cons] at hlast
            rw [List.length_cons, scan, hsame, ih hlast (Option.map_eq_none_iff.mp hnone)]
            simp [hw]

end Keel
