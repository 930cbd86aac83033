import Mathlib.Algebra.BigOperators.Group.Finset.Basic
import Mathlib.Data.Fintype.BigOperators

/-!
# Threads at a condition variable

Several threads that share one mutex and one condition variable, each atomic
section of the mutex being one step. A thread waits for the mutex (`ready`),
sleeps in `wait` (`blocked`), or is elsewhere in its program (`away`). The
condition variable is the set of the blocked threads: `NotifyOne` wakes one
of them if there is one, `wakeAll` wakes them all. A woken thread is ready
and tests its predicate again.

`tally` counts the threads at one place of the program, so that what they
hold can be accounted for.
-/

namespace Keel

universe u v

/-- Where a thread stands; `α` is the rest of its program. -/
inductive Thread (α : Type u) where
  /-- it waits for the mutex -/
  | ready
  /-- it sleeps in `wait` -/
  | blocked
  /-- it is at `a`, without the mutex -/
  | away (a : α)
  deriving DecidableEq

namespace CondVar

variable {ι : Type u} {α : Type v}

/-- `notify_all`: every blocked thread is ready. -/
def wakeAll (threads : ι → Thread α) : ι → Thread α := fun i =>
  match threads i with
  | .blocked => .ready
  | t => t

/-- `notify_one`: one blocked thread is ready, if there is one. -/
inductive NotifyOne [DecidableEq ι] (threads : ι → Thread α) : (ι → Thread α) → Prop
  | nobody : (∀ i, threads i ≠ .blocked) → NotifyOne threads threads
  | wake (i : ι) : threads i = .blocked →
      NotifyOne threads (Function.update threads i .ready)

/-- Some thread does not sleep. -/
def Awake (threads : ι → Thread α) : Prop := ∃ i, threads i ≠ .blocked

theorem wakeAll_ne_blocked (threads : ι → Thread α) (i : ι) :
    wakeAll threads i ≠ .blocked := by
  unfold wakeAll
  cases threads i <;> simp

@[simp] theorem wakeAll_eq_away (threads : ι → Thread α) (i : ι) (a : α) :
    wakeAll threads i = .away a ↔ threads i = .away a := by
  unfold wakeAll
  cases threads i <;> simp

section
variable [DecidableEq ι]

/-- A move of one thread to anywhere but its sleep leaves one awake. -/
theorem awake_update (threads : ι → Thread α) (i : ι) {t : Thread α} (ht : t ≠ .blocked) :
    Awake (Function.update threads i t) :=
  ⟨i, by rwa [Function.update_self]⟩

/-- If nobody sleeps, a move of one thread to anywhere but its sleep keeps it
so. -/
theorem ne_blocked_update {threads : ι → Thread α} {i : ι} {t : Thread α}
    (ht : t ≠ .blocked) (h : ∀ j, threads j ≠ .blocked) (j : ι) :
    Function.update threads i t j ≠ .blocked := by
  by_cases hj : j = i
  · subst hj
    rwa [Function.update_self]
  · rw [Function.update_of_ne hj]
    exact h j

variable {threads threads' : ι → Thread α}

/-- Behind a `notify_one` not every thread sleeps. -/
theorem NotifyOne.awake [Nonempty ι] (h : NotifyOne threads threads') : Awake threads' := by
  cases h with
  | nobody hnone => exact ⟨Classical.arbitrary ι, hnone _⟩
  | wake i _ => exact awake_update threads i (by simp)

/-- A `notify_one` puts nobody to sleep. -/
theorem NotifyOne.ne_blocked (h : NotifyOne threads threads')
    (hawake : ∀ i, threads i ≠ .blocked) : ∀ i, threads' i ≠ .blocked := by
  cases h with
  | nobody _ => exact hawake
  | wake i _ => exact ne_blocked_update (by simp) hawake

/-- A `notify_one` moves no thread that is not at the condition variable. -/
theorem NotifyOne.away_iff (h : NotifyOne threads threads') (i : ι) (a : α) :
    threads' i = .away a ↔ threads i = .away a := by
  cases h with
  | nobody _ => exact Iff.rfl
  | wake j hj =>
      by_cases hi : i = j
      · subst hi
        simp [hj]
      · rw [Function.update_of_ne hi]

end

section
variable [Fintype ι] [DecidableEq α]

/-- How many threads are at `a`. -/
def tally (threads : ι → Thread α) (a : α) : Nat :=
  (Finset.univ.filter (fun i => threads i = .away a)).card

/-- The tally sees only who is at `a`. -/
theorem tally_congr {threads threads' : ι → Thread α} {a : α}
    (h : ∀ i, threads' i = .away a ↔ threads i = .away a) :
    tally threads' a = tally threads a := by
  unfold tally
  simp only [h]

theorem tally_pos {threads : ι → Thread α} {a : α} :
    0 < tally threads a ↔ ∃ i, threads i = .away a := by
  unfold tally
  rw [Finset.card_pos]
  simp [Finset.Nonempty]

/-- Two threads at one place are two in its tally. -/
theorem eq_of_tally_le_one {threads : ι → Thread α} {a : α} (h : tally threads a ≤ 1)
    {i j : ι} (hi : threads i = .away a) (hj : threads j = .away a) : i = j := by
  unfold tally at h
  rw [Finset.card_le_one] at h
  exact h i (by simp [hi]) j (by simp [hj])

/-- One thread moves from where it was to `t`: the place it left loses one,
the place it enters gains one. -/
theorem tally_update [DecidableEq ι] (threads : ι → Thread α) (i : ι) (t : Thread α) (a : α) :
    tally (Function.update threads i t) a + (if threads i = .away a then 1 else 0) =
      tally threads a + (if t = .away a then 1 else 0) := by
  unfold tally
  rw [Finset.card_filter, Finset.card_filter,
    ← Finset.add_sum_erase _ _ (Finset.mem_univ i),
    ← Finset.add_sum_erase (Finset.univ) (fun j => if threads j = .away a then 1 else 0)
      (Finset.mem_univ i)]
  -- all the other threads count alike
  have hrest : ∀ j ∈ Finset.univ.erase i,
      (if Function.update threads i t j = .away a then 1 else 0) =
        if threads j = .away a then 1 else 0 := by
    intro j hj
    rw [Function.update_of_ne (Finset.ne_of_mem_erase hj)]
  rw [Finset.sum_congr rfl hrest, Function.update_self]
  omega

end

end CondVar
end Keel
