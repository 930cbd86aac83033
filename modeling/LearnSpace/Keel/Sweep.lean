import Mathlib.Data.List.Basic
import Mathlib.Data.List.Chain

/-!
# Removing from a list while scanning it

A scan that removes an element and then goes on by one position does not look at the element
that has moved up: `sweep t` is what it leaves when it removes all `t` it sees. Of a run of
`t` every other one is left (`sweep_run`), so a list is cleared of `t` only when no two of
them are neighbours (`sweep_eq_filter_iff`). The last two results are about a list in two
parts of which only the second should be scanned: they say when a scan of both, or the
removal of the first `t` of both, comes to the same.
-/

namespace Keel

variable {α : Type*} {t x : α} {as bs front back : List α}

theorem replicate_cons_append (n : Nat) (xs : List α) :
    List.replicate (n + 1) t ++ xs = t :: (List.replicate n t ++ xs) := rfl

/-- A list begins with one run. -/
theorem run_unique (has : as.head? ≠ some t) (hbs : bs.head? ≠ some t) :
    ∀ {m n : Nat}, List.replicate m t ++ as = List.replicate n t ++ bs → m = n ∧ as = bs := by
  intro m
  induction m with
  | zero =>
      intro n he
      cases n with
      | zero => exact ⟨rfl, he⟩
      | succ n =>
          rw [List.replicate_zero, List.nil_append, replicate_cons_append] at he
          exact absurd (by rw [he]; rfl) has
  | succ m ih =>
      intro n he
      cases n with
      | zero =>
          rw [List.replicate_zero, List.nil_append, replicate_cons_append] at he
          exact absurd (by rw [← he]; rfl) hbs
      | succ n =>
          rw [replicate_cons_append, replicate_cons_append, List.cons.injEq] at he
          obtain ⟨hmn, hrest⟩ := ih he.2
          exact ⟨congrArg _ hmn, hrest⟩

/-- The element that moves round a list it is equal to. -/
theorem eq_replicate_of_rotate : ∀ {xs : List α}, xs ++ [t] = t :: xs →
    xs = List.replicate xs.length t := by
  intro xs
  induction xs with
  | nil => exact fun _ => rfl
  | cons x xs ih =>
      intro he
      rw [List.cons_append, List.cons.injEq] at he
      obtain ⟨rfl, hrest⟩ := he
      rw [List.length_cons, List.replicate_succ, ← ih hrest]

variable [DecidableEq α]

/-- What is left of a list by a scan that skips the element behind a removed one. -/
def sweep (t : α) : List α → List α
  | [] => []
  | [x] => if x = t then [] else [x]
  | x :: y :: ys => if x = t then y :: sweep t ys else x :: sweep t (y :: ys)

/-- No two neighbours are `t`. -/
def Apart (t : α) (xs : List α) : Prop := xs.IsChain (fun x y => ¬ (x = t ∧ y = t))

instance (t : α) (xs : List α) : Decidable (Apart t xs) :=
  inferInstanceAs (Decidable (List.IsChain _ _))

/-! ## Runs -/

/-- The run a list begins with. -/
theorem exists_run (t : α) (xs : List α) :
    ∃ q bs, xs = List.replicate q t ++ bs ∧ bs.head? ≠ some t := by
  induction xs with
  | nil => exact ⟨0, [], rfl, by simp⟩
  | cons x xs ih =>
      by_cases hx : x = t
      · obtain ⟨q, bs, rfl, hbs⟩ := ih
        exact ⟨q + 1, bs, by rw [hx, replicate_cons_append], hbs⟩
      · exact ⟨0, x :: xs, rfl, by simpa using hx⟩

/-- The run a list ends with. -/
theorem exists_run_end (t : α) (xs : List α) :
    ∃ as p, xs = as ++ List.replicate p t ∧ as.getLast? ≠ some t := by
  obtain ⟨p, bs, hxs, hbs⟩ := exists_run t xs.reverse
  refine ⟨bs.reverse, p, ?_, by rwa [List.getLast?_reverse]⟩
  rw [← List.reverse_reverse xs, hxs, List.reverse_append, List.reverse_replicate]

/-- The first run of a list that does not end with one. -/
theorem exists_first_run (hmem : t ∈ as) (hlast : as.getLast? ≠ some t) :
    ∃ cs m x ds, as = cs ++ (List.replicate (m + 1) t ++ x :: ds) ∧ t ∉ cs ∧ x ≠ t := by
  obtain ⟨cs, es, rfl, hcs⟩ := List.eq_append_cons_of_mem hmem
  obtain ⟨m, fs, rfl, hfs⟩ := exists_run t es
  cases fs with
  | nil =>
      refine absurd ?_ hlast
      rw [List.append_nil, ← List.replicate_succ, List.replicate_succ', ← List.append_assoc]
      exact List.getLast?_concat ..
  | cons x ds =>
      refine ⟨cs, m, x, ds, by rw [replicate_cons_append], hcs, ?_⟩
      simpa using hfs

/-! ## The scan -/

theorem sweep_cons_ne (hx : x ≠ t) (xs : List α) : sweep t (x :: xs) = x :: sweep t xs := by
  cases xs with
  | nil => simp only [sweep, if_neg hx]
  | cons y ys => rw [sweep, if_neg hx]

theorem sweep_cons_cons (y : α) (ys : List α) : sweep t (t :: y :: ys) = y :: sweep t ys := by
  rw [sweep, if_pos rfl]

theorem sweep_singleton : sweep t [t] = [] := by
  rw [sweep, if_pos rfl]

/-- What is in front of the first `t` stays. -/
theorem sweep_append (has : t ∉ as) (bs : List α) : sweep t (as ++ bs) = as ++ sweep t bs := by
  induction as with
  | nil => rfl
  | cons a as ih =>
      rw [List.mem_cons, not_or] at has
      rw [List.cons_append, sweep_cons_ne (Ne.symm has.1), ih has.2, List.cons_append]

/-- Of a run every other element is left. -/
theorem sweep_run (hbs : bs.head? ≠ some t) :
    ∀ n, sweep t (List.replicate n t ++ bs) = List.replicate (n / 2) t ++ sweep t bs
  | 0 => rfl
  | 1 => by
      cases bs with
      | nil => exact sweep_singleton
      | cons y ys =>
          have hy : y ≠ t := by simpa using hbs
          show sweep t (t :: y :: ys) = sweep t (y :: ys)
          rw [sweep_cons_cons, sweep_cons_ne hy]
  | n + 2 => by
      have hhalf : (n + 2) / 2 = n / 2 + 1 := by omega
      rw [replicate_cons_append, replicate_cons_append, sweep_cons_cons, sweep_run hbs n, hhalf,
        replicate_cons_append]

/-- A scan removes every `t` exactly when no two are neighbours. -/
theorem sweep_eq_filter_iff :
    ∀ xs : List α, sweep t xs = xs.filter (fun u => !(u == t)) ↔ Apart t xs
  | [] => by simp [sweep, Apart]
  | [x] => by
      by_cases hx : x = t <;> simp [sweep, Apart, hx]
  | x :: y :: ys => by
      have hcons : Apart t (x :: y :: ys) ↔ ¬ (x = t ∧ y = t) ∧ Apart t (y :: ys) :=
        List.isChain_cons_cons
      by_cases hx : x = t
      · rw [hx] at hcons ⊢
        rw [sweep_cons_cons, hcons]
        by_cases hy : y = t
        · -- the second of two is left
          refine iff_of_false (fun he => ?_) (fun h => h.1 ⟨rfl, hy⟩)
          have hmem : t ∈ List.filter (fun u => !(u == t)) (t :: y :: ys) := by
            rw [← he, hy]
            exact List.mem_cons_self
          simp at hmem
        · have ih := sweep_eq_filter_iff (y :: ys)
          rw [sweep_cons_ne hy] at ih
          simp only [hy, and_false, not_false_eq_true, true_and]
          rw [← ih]
          simp
      · rw [sweep_cons_ne hx, hcons, ← sweep_eq_filter_iff (y :: ys)]
        simp [hx]

theorem filter_run (n : Nat) (xs : List α) :
    (List.replicate n t ++ xs).filter (fun u => !(u == t)) = xs.filter (fun u => !(u == t)) := by
  simp

theorem head_sweep (has : as.head? ≠ some t) : (sweep t as).head? ≠ some t := by
  cases as with
  | nil => exact has
  | cons x xs =>
      have hx : x ≠ t := by simpa using has
      simpa [sweep_cons_ne hx] using hx

theorem head_filter (xs : List α) : (xs.filter (fun u => !(u == t))).head? ≠ some t := by
  intro hsome
  have hmem := List.mem_of_mem_head? hsome
  simp at hmem

/-- A front that does not end with `t` is only left by a scan if there is no `t` in it. -/
theorem not_mem_of_sweep (hlast : as.getLast? ≠ some t) (he : sweep t (as ++ back) = as ++ bs) :
    t ∉ as := by
  intro hmem
  obtain ⟨cs, m, x, ds, rfl, hcs, hx⟩ := exists_first_run hmem hlast
  have hassoc : ∀ xs : List α, cs ++ (List.replicate (m + 1) t ++ x :: ds) ++ xs =
      cs ++ (List.replicate (m + 1) t ++ x :: (ds ++ xs)) := by
    intro xs
    simp
  -- half of the first run would be left
  rw [hassoc, hassoc, sweep_append hcs, List.append_right_inj, sweep_run (by simpa using hx),
    sweep_cons_ne hx] at he
  have hm := (run_unique (by simpa using hx) (by simpa using hx) he).1
  omega

/-! ## A list in two parts -/

/-- A scan of both parts comes to removing `t` from the second exactly when there is no `t`
in the first but a run at its end, the second goes on with as many or one more, and then has
no two of them as neighbours. -/
theorem sweep_iff :
    sweep t (front ++ back) = front ++ back.filter (fun u => !(u == t)) ↔
      ∃ as p q bs, front = as ++ List.replicate p t ∧ t ∉ as ∧
        back = List.replicate q t ++ bs ∧ bs.head? ≠ some t ∧ (q = p ∨ q = p + 1) ∧
        Apart t bs := by
  constructor
  · intro he
    obtain ⟨as, p, rfl, has⟩ := exists_run_end t front
    obtain ⟨q, bs, rfl, hbs⟩ := exists_run t back
    rw [List.append_assoc, List.append_assoc] at he
    have hmem := not_mem_of_sweep has he
    rw [sweep_append hmem, List.append_right_inj, filter_run, ← List.append_assoc,
      ← List.replicate_add, sweep_run hbs] at he
    obtain ⟨hp, hrest⟩ := run_unique (head_sweep hbs) (head_filter bs) he
    exact ⟨as, p, q, bs, rfl, hmem, rfl, hbs, by omega, (sweep_eq_filter_iff bs).mp hrest⟩
  · rintro ⟨as, p, q, bs, rfl, has, rfl, hbs, hq, hapart⟩
    have hhalf : (p + q) / 2 = p := by omega
    rw [List.append_assoc, sweep_append has, List.append_assoc, filter_run, ← List.append_assoc,
      ← List.replicate_add, sweep_run hbs, hhalf, (sweep_eq_filter_iff bs).mpr hapart]

/-- Removing the first `t` of both parts comes to removing the first one of the second exactly
when there is no `t` in the first but a run at its end, and the second goes on with it. -/
theorem erase_append_iff :
    (front ++ back).erase t = front ++ back.erase t ↔
      ∃ as p q bs, front = as ++ List.replicate p t ∧ t ∉ as ∧
        back = List.replicate q t ++ bs ∧ bs.head? ≠ some t ∧ (p = 0 ∨ 0 < q) := by
  constructor
  · intro he
    obtain ⟨q, bs, hback, hbs⟩ := exists_run t back
    by_cases hmem : t ∈ front
    · have hmem' : t ∈ back := by
        by_contra hnot
        have hlength := congrArg List.length he
        rw [List.erase_of_not_mem hnot,
          List.length_erase_of_mem (List.mem_append_left _ hmem)] at hlength
        have hpos := List.length_pos_of_mem (List.mem_append_left back hmem)
        omega
      obtain ⟨as, cs, rfl, has⟩ := List.eq_append_cons_of_mem hmem
      obtain ⟨ds, es, rfl, hds⟩ := List.eq_append_cons_of_mem hmem'
      rw [List.append_assoc, List.cons_append, List.erase_append_right _ has,
        List.erase_cons_head, List.erase_append_right _ hds, List.erase_cons_head,
        List.append_assoc, List.append_right_inj] at he
      -- what lies between the two is moved by one, so it is all `t`
      have hrotate : (cs ++ ds) ++ [t] = t :: (cs ++ ds) := by
        apply (List.append_left_inj es).mp
        simpa using he
      have hall := eq_replicate_of_rotate hrotate
      have hcs : cs = List.replicate cs.length t := by
        rw [List.eq_replicate_iff]
        refine ⟨rfl, fun u hu => ?_⟩
        exact List.eq_of_mem_replicate (hall ▸ List.mem_append_left ds hu)
      refine ⟨as, cs.length + 1, q, bs, ?_, has, hback, hbs, .inr ?_⟩
      · rw [List.replicate_succ, ← hcs]
      · refine Nat.pos_of_ne_zero (fun hq => ?_)
        have hds' : ds = [] := by
          refine List.eq_nil_iff_forall_not_mem.mpr (fun u hu => hds ?_)
          have hut : u = t := List.eq_of_mem_replicate (hall ▸ List.mem_append_right cs hu)
          exact hut ▸ hu
        rw [hq, hds', List.replicate_zero, List.nil_append, List.nil_append] at hback
        exact hbs (by rw [← hback]; rfl)
    · exact ⟨front, 0, q, bs, by rw [List.replicate_zero, List.append_nil], hmem, hback, hbs,
        .inl rfl⟩
  · rintro ⟨as, p, q, bs, rfl, has, rfl, hbs, hpq⟩
    rw [List.append_assoc, List.erase_append_right _ has, List.append_assoc,
      List.append_right_inj]
    cases p with
    | zero => rfl
    | succ p =>
        obtain ⟨q, rfl⟩ := Nat.exists_eq_add_one_of_ne_zero
          (Nat.ne_of_gt (hpq.resolve_left (Nat.succ_ne_zero p)))
        have hsum : p + (q + 1) = p + 1 + q := by omega
        rw [replicate_cons_append p, List.erase_cons_head, replicate_cons_append q,
          List.erase_cons_head, ← replicate_cons_append q, ← List.append_assoc,
          ← List.append_assoc, ← List.replicate_add, ← List.replicate_add, hsum]

end Keel
