import Mathlib.Data.List.Basic

/-!
# Reversal in place

A loop that reverses the first `n` elements of a memory exchanges the elements at `i` and
`n - 1 - i` for every `i` below `n / 2`. In front of an iteration the outer positions are mirrored
and the inner ones are as they were (`Mirrored`). An iteration moves the border between them by
one (`Mirrored.step`), and in the middle nothing is left inside (`Mirrored.half`). The memory is
anything that holds a sequence, and its accesses may fail (`reverse_run`).
-/

namespace Keel

universe u v

variable {α : Type u} {μ : Type v} {xs ys : List α} {n k i : Nat}

/-- The sequence with its first `n` elements reversed. -/
def reverseFront (n : Nat) (xs : List α) : List α := (xs.take n).reverse ++ xs.drop n

theorem reverseFront_length (xs : List α) : reverseFront xs.length xs = xs.reverse := by
  rw [reverseFront, List.take_length, List.drop_length, List.append_nil]

theorem length_reverseFront (n : Nat) (xs : List α) :
    (reverseFront n xs).length = xs.length := by
  rw [reverseFront, List.length_append, List.length_reverse, ← List.length_append,
    List.take_append_drop]

theorem getElem?_reverseFront (hn : n ≤ xs.length) :
    (reverseFront n xs)[i]? = if i < n then xs[n - 1 - i]? else xs[i]? := by
  have hfront : (xs.take n).reverse.length = n := by
    rw [List.length_reverse, List.length_take_of_le hn]
  unfold reverseFront
  split
  · rename_i hi
    have htake : i < (xs.take n).length := by rwa [List.length_take_of_le hn]
    rw [List.getElem?_append_left (by omega), List.getElem?_reverse htake,
      List.length_take_of_le hn, List.getElem?_take_of_lt (by omega)]
  · rw [List.getElem?_append_right (by omega), hfront, List.getElem?_drop]
    congr 1
    omega

/-- Reversed twice, it is as it was. -/
theorem reverseFront_twice (hn : n ≤ xs.length) : reverseFront n (reverseFront n xs) = xs := by
  apply List.ext_getElem?
  intro i
  rw [getElem?_reverseFront (by rwa [length_reverseFront]), getElem?_reverseFront hn,
    getElem?_reverseFront hn]
  split
  · have hback : n - 1 - (n - 1 - i) = i := by omega
    rw [if_pos (by omega), hback]
  · rfl

/-- The first `n` elements of `xs` with the outer `k` pairs exchanged. -/
structure Mirrored (n k : Nat) (xs ys : List α) : Prop where
  length : ys.length = xs.length
  outer : ∀ i, i < n → (i < k ∨ n - 1 - i < k) → ys[i]? = xs[n - 1 - i]?
  inner : ∀ i, (n ≤ i ∨ k ≤ i ∧ k ≤ n - 1 - i) → ys[i]? = xs[i]?

namespace Mirrored

theorem zero (n : Nat) (xs : List α) : Mirrored n 0 xs xs where
  length := rfl
  outer i _ h := by omega
  inner i _ := rfl

/-- One more pair is exchanged. -/
theorem step (m : Mirrored n k xs ys) (hk : k < n / 2) (hn : n ≤ xs.length) {a b : α}
    (ha : ys[k]? = some a) (hb : ys[n - 1 - k]? = some b) :
    Mirrored n (k + 1) xs ((ys.set k b).set (n - 1 - k) a) := by
  have hlength := m.length
  refine ⟨by rw [List.length_set, List.length_set, hlength], ?_, ?_⟩
  · intro i hi hout
    by_cases hlast : i = n - 1 - k
    · have hmirror : n - 1 - i = k := by omega
      have hin : n - 1 - k < (ys.set k b).length := by
        rw [List.length_set]
        omega
      rw [hlast, List.getElem?_set_self hin, ← hlast, hmirror, ← ha]
      exact m.inner k (by omega)
    · rw [List.getElem?_set_ne (Ne.symm hlast)]
      by_cases hfirst : i = k
      · rw [hfirst, List.getElem?_set_self (by omega), ← hb]
        exact m.inner (n - 1 - k) (by omega)
      · rw [List.getElem?_set_ne (Ne.symm hfirst)]
        exact m.outer i hi (by omega)
  · intro i hin
    rw [List.getElem?_set_ne (by omega), List.getElem?_set_ne (by omega)]
    exact m.inner i (by omega)

/-- In the middle the whole front is reversed. -/
theorem half (m : Mirrored n (n / 2) xs ys) (hn : n ≤ xs.length) : ys = reverseFront n xs := by
  apply List.ext_getElem?
  intro i
  rw [getElem?_reverseFront hn]
  split
  · rename_i hi
    by_cases hmiddle : n / 2 ≤ i ∧ n / 2 ≤ n - 1 - i
    · -- the middle of an odd number of elements is its own mirror
      have hself : n - 1 - i = i := by omega
      rw [hself]
      exact m.inner i (by omega)
    · exact m.outer i hi (by omega)
  · exact m.inner i (by omega)

end Mirrored

/-- **A loop whose iterations exchange mirrored elements reverses them.** -/
theorem reverse_run (Holds : μ → List α → Prop) {body : μ → Nat → Option μ} {s : μ}
    (hs : Holds s xs) (hn : n ≤ xs.length)
    (hbody : ∀ s ys i a b, Holds s ys → i < n / 2 → ys[i]? = some a → ys[n - 1 - i]? = some b →
      ∃ s', body s i = some s' ∧ Holds s' ((ys.set i b).set (n - 1 - i) a)) :
    ∃ s', (List.range (n / 2)).foldlM body s = some s' ∧ Holds s' (reverseFront n xs) := by
  have hrun : ∀ k, k ≤ n / 2 →
      ∃ s' ys, (List.range k).foldlM body s = some s' ∧ Holds s' ys ∧ Mirrored n k xs ys := by
    intro k
    induction k with
    | zero =>
        intro _
        exact ⟨s, xs, rfl, hs, .zero n xs⟩
    | succ k ih =>
        intro hk
        obtain ⟨s', ys, hfold, hys, m⟩ := ih (by omega)
        have hlength := m.length
        have hfirst : k < ys.length := by omega
        have hlast : n - 1 - k < ys.length := by omega
        obtain ⟨s'', hstep, hys'⟩ := hbody s' ys k _ _ hys hk (List.getElem?_eq_getElem hfirst)
          (List.getElem?_eq_getElem hlast)
        refine ⟨s'', _, ?_, hys', m.step hk hn (List.getElem?_eq_getElem hfirst)
          (List.getElem?_eq_getElem hlast)⟩
        rw [List.range_succ, List.foldlM_append, hfold]
        simp [hstep]
  obtain ⟨s', ys, hfold, hys, m⟩ := hrun (n / 2) (Nat.le_refl _)
  exact ⟨s', hfold, m.half hn ▸ hys⟩

end Keel
