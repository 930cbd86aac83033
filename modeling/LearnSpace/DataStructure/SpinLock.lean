import LearnSpace.Keel.Guarded
import LearnSpace.Keel.TSys
import Mathlib.Algebra.BigOperators.Group.Finset.Basic
import Mathlib.Algebra.Order.BigOperators.Group.Finset
import Mathlib.Data.Fintype.BigOperators

/-!
# `SpinLock`

`SpinLock.hpp`, and the threads of `add` in `DataStructure.cpp` that share one lock and one
counter. Each access to `m_state` and to the counter is one step of its own, in one
sequentially consistent order, and so is each `yield`. What a thread does between two of
these concerns its own variables only and is part of the step before.

The number of threads and how often each of them takes the lock are parameters; `main` has
8 threads and 100000 rounds for each.
-/

namespace LearnSpace.DataStructure

open Keel Function

/-! ## The lock -/

/-- `class SpinLock`, whose only member is the atomic flag. -/
structure SpinLock where
  m_state : Bool
  deriving DecidableEq

namespace SpinLock

/-- `m_count`: the failed exchanges after which a thread gives way. -/
def m_count : Nat := 30

/-- `SpinLock()` -/
def new : SpinLock := ⟨false⟩

/-- `m_state.compare_exchange_strong(value, desired)`: whether it succeeded, and the lock. -/
def compareExchangeStrong (lock : SpinLock) (value desired : Bool) : Bool × SpinLock :=
  if lock.m_state = value then (true, ⟨desired⟩) else (false, lock)

/-- `unlock()`: `m_state.store(false)`. -/
def unlock (_ : SpinLock) : SpinLock := ⟨false⟩

theorem compareExchangeStrong_eq {lock : SpinLock} {value : Bool} (desired : Bool)
    (h : lock.m_state = value) :
    lock.compareExchangeStrong value desired = (true, ⟨desired⟩) :=
  if_pos h

theorem compareExchangeStrong_ne {lock : SpinLock} {value : Bool} (desired : Bool)
    (h : lock.m_state ≠ value) : lock.compareExchangeStrong value desired = (false, lock) :=
  if_neg h

end SpinLock

/-! ## The threads -/

/-- Where a thread stands in `add`, and what it holds in its own variables. -/
inductive Pc where
  /-- the condition of the `for` loop -/
  | test
  /-- the exchange in `lock()`, after `count` failures in a row -/
  | exchange (count : Nat)
  /-- `yield()` in `lock()` -/
  | yield
  /-- the read of the counter -/
  | read
  /-- the write of the counter, of which `value` was read -/
  | write (value : Nat)
  /-- the store in `unlock()` -/
  | store
  /-- behind the loop -/
  | finished
  deriving DecidableEq

/-- Between a successful `lock()` and its `unlock()`. -/
def Pc.Inside : Pc → Prop
  | .read | .write _ | .store => True
  | .test | .exchange _ | .yield | .finished => False

/-- The lock, the counter, and for each thread where it stands and its loop variable `i`. -/
@[ext] structure Adders (ι : Type*) where
  locker : SpinLock
  retSum : Nat
  pc : ι → Pc
  i : ι → Nat

namespace Adders

variable {ι : Type*} [DecidableEq ι]

/-- Before the threads run. -/
def start : Adders ι where
  locker := .new
  retSum := 0
  pc _ := .test
  i _ := 0

/-- A thread goes to another place of its program. -/
def goto (σ : Adders ι) (t : ι) (pc : Pc) : Adders ι := { σ with pc := update σ.pc t pc }

/-- A turn of the loop in `lock()`. -/
def exchange (σ : Adders ι) (t : ι) (count : Nat) : Adders ι :=
  let (success, locker) := σ.locker.compareExchangeStrong false true
  if success then { σ with locker := locker }.goto t .read
  else if SpinLock.m_count ≤ count + 1 then σ.goto t .yield
  else σ.goto t (.exchange (count + 1))

/-- The next step of thread `t`, which is to make `rounds t` rounds. -/
def next (rounds : ι → Nat) (σ : Adders ι) (t : ι) : Option (Adders ι) :=
  match σ.pc t with
  | .test => some (σ.goto t (if σ.i t < rounds t then .exchange 0 else .finished))
  | .exchange count => some (σ.exchange t count)
  | .yield => some (σ.goto t (.exchange 0))
  | .read => some (σ.goto t (.write σ.retSum))
  | .write value => some ({ σ with retSum := value + 1 }.goto t .store)
  | .store =>
    some ({ σ with locker := σ.locker.unlock, i := update σ.i t (σ.i t + 1) }.goto t .test)
  | .finished => none

/-- Every interleaving of the threads' steps. -/
def interleavings (rounds : ι → Nat) : TSys (Adders ι) ι where
  init σ := σ = start
  step σ t σ' := σ.next rounds t = some σ'

/-! ## What one step can do -/

/-- Thread `t` moves from `pc` to `pc'` and changes nothing but what the case names. -/
inductive Moves (rounds : ι → Nat) (σ : Adders ι) (t : ι) : Adders ι → Prop
  /-- the loop goes on, or ends -/
  | test (pc' : Pc) : σ.pc t = .test →
      (σ.i t < rounds t ∧ pc' = .exchange 0 ∨ rounds t ≤ σ.i t ∧ pc' = .finished) →
      Moves rounds σ t (σ.goto t pc')
  /-- it keeps trying, with or without giving way -/
  | retry (pc' : Pc) : (∃ n, σ.pc t = .exchange n) ∨ σ.pc t = .yield →
      (∃ n, pc' = .exchange n) ∨ pc' = .yield → Moves rounds σ t (σ.goto t pc')
  | acquire (n : Nat) : σ.pc t = .exchange n → σ.locker.m_state = false →
      Moves rounds σ t ({ σ with locker := ⟨true⟩ }.goto t .read)
  | read : σ.pc t = .read → Moves rounds σ t (σ.goto t (.write σ.retSum))
  | write (value : Nat) : σ.pc t = .write value →
      Moves rounds σ t ({ σ with retSum := value + 1 }.goto t .store)
  | release : σ.pc t = .store →
      Moves rounds σ t
        ({ σ with locker := ⟨false⟩, i := update σ.i t (σ.i t + 1) }.goto t .test)

variable {rounds : ι → Nat} {σ σ' : Adders ι} {t : ι}

/-- A turn of the loop in `lock()` takes the lock when it is free, and tries again else. -/
theorem exchange_moves {n : Nat} (h : σ.pc t = .exchange n) :
    Moves rounds σ t (σ.exchange t n) := by
  unfold exchange
  by_cases hfree : σ.locker.m_state = false
  · rw [SpinLock.compareExchangeStrong_eq true hfree]
    exact .acquire n h hfree
  · rw [SpinLock.compareExchangeStrong_ne true hfree]
    by_cases hcount : SpinLock.m_count ≤ n + 1
    · simp only [hcount, if_true]
      exact .retry _ (.inl ⟨n, h⟩) (.inr rfl)
    · simp only [hcount, if_false]
      exact .retry _ (.inl ⟨n, h⟩) (.inl ⟨n + 1, rfl⟩)

theorem next_moves (h : σ.next rounds t = some σ') : Moves rounds σ t σ' := by
  unfold next at h
  split at h <;> cases h
  · rename_i hpc
    apply Moves.test _ hpc
    split
    · exact .inl ⟨‹_›, rfl⟩
    · exact .inr ⟨Nat.le_of_not_lt ‹_›, rfl⟩
  · exact exchange_moves ‹_›
  · exact .retry _ (.inr ‹_›) (.inl ⟨0, rfl⟩)
  · exact .read ‹_›
  · exact .write _ ‹_›
  · exact .release ‹_›

/-! ## The invariant -/

/-- The rounds thread `t` has counted; the last of them may still hold the lock. -/
def credit (σ : Adders ι) (t : ι) : Nat := σ.i t + if σ.pc t = .store then 1 else 0

/-- What a thread's own variables are at a place of its program: within the loop there is a
round to make, and the counter is still what was read of it. -/
def Fits (rounds i retSum : Nat) : Pc → Prop
  | .test => i ≤ rounds
  | .exchange _ | .yield | .read | .store => i < rounds
  | .write value => i < rounds ∧ value = retSum
  | .finished => i = rounds

/-- What holds between any two steps. -/
structure Orderly [Fintype ι] (rounds : ι → Nat) (σ : Adders ι) : Prop where
  guarded : Guarded σ.locker.m_state fun t => (σ.pc t).Inside
  fits : ∀ t, Fits (rounds t) (σ.i t) σ.retSum (σ.pc t)
  counted : σ.retSum = ∑ t, σ.credit t

/-- Outside nobody has read the counter, so its value does not matter there. -/
theorem Fits.outside {n i retSum : Nat} {pc : Pc} (h : Fits n i retSum pc) (hpc : ¬ pc.Inside)
    (retSum' : Nat) : Fits n i retSum' pc := by
  cases pc with
  | write value => exact absurd trivial hpc
  | _ => exact h

/-- A thread that is inside has a round to make. -/
theorem Fits.inside {n i retSum : Nat} {pc : Pc} (h : Fits n i retSum pc) (hpc : pc.Inside) :
    i < n := by
  cases pc with
  | read => exact h
  | write value => exact h.1
  | store => exact h
  | _ => exact hpc.elim

theorem Fits.le {n i retSum : Nat} {pc : Pc} (h : Fits n i retSum pc) :
    i + (if pc = .store then 1 else 0) ≤ n := by
  cases pc with
  | write value => exact Nat.le_of_lt h.1
  | _ => simp only [Fits] at h; simp; omega

variable [Fintype ι]

/-- One thread counts `k` rounds, the others none. -/
theorem sum_credit (t : ι) {k : Nat} (ht : σ'.credit t = σ.credit t + k)
    (hother : ∀ u, u ≠ t → σ'.credit u = σ.credit u) :
    ∑ u, σ'.credit u = ∑ u, σ.credit u + k := by
  have hrest : ∑ u ∈ Finset.univ.erase t, σ'.credit u = ∑ u ∈ Finset.univ.erase t, σ.credit u := by
    apply Finset.sum_congr rfl
    intro u hu
    exact hother u (Finset.ne_of_mem_erase hu)
  rw [← Finset.add_sum_erase _ _ (Finset.mem_univ t),
    ← Finset.add_sum_erase _ σ.credit (Finset.mem_univ t), ht, hrest]
  omega

namespace Orderly

omit [DecidableEq ι] in
theorem start : Orderly rounds (start : Adders ι) where
  guarded := Guarded.empty fun _ hinside => hinside
  fits _ := Nat.zero_le _
  counted := by simp [Adders.start, credit]

/-- A step that changes neither the lock nor the counter. -/
theorem goto {pc' : Pc} (h : Orderly rounds σ) (hside : pc'.Inside ↔ (σ.pc t).Inside)
    (hpc : σ.pc t ≠ .store) (hpc' : pc' ≠ .store)
    (hfits : Fits (rounds t) (σ.i t) σ.retSum pc') : Orderly rounds (σ.goto t pc') where
  guarded := h.guarded.stay hside
  fits u := by
    by_cases hu : u = t
    · subst hu
      simpa [Adders.goto] using hfits
    · simpa [Adders.goto, update_of_ne hu] using h.fits u
  counted := by
    have hsum : ∑ u, (σ.goto t pc').credit u = ∑ u, σ.credit u + 0 := by
      apply sum_credit t
      · simp [credit, Adders.goto, hpc, hpc']
      · intro u hu
        simp [credit, Adders.goto, update_of_ne hu]
    rw [hsum]
    exact h.counted

/-- A successful exchange. -/
theorem acquire {n : Nat} (h : Orderly rounds σ) (hpc : σ.pc t = .exchange n)
    (hfree : σ.locker.m_state = false) :
    Orderly rounds ({ σ with locker := ⟨true⟩ }.goto t .read) where
  guarded := by
    have hguarded := h.guarded
    rw [hfree] at hguarded
    exact hguarded.enter trivial
  fits u := by
    have hfits := h.fits u
    by_cases hu : u = t
    · subst hu
      rw [hpc] at hfits
      have hlt : σ.i u < rounds u := hfits
      simpa [Adders.goto, Fits] using hlt
    · simpa [Adders.goto, update_of_ne hu] using hfits
  counted := by
    show σ.retSum = _
    rw [sum_credit (σ := σ) t (k := 0), ← h.counted, Nat.add_zero]
    · simp [credit, Adders.goto, hpc]
    · intro u hu
      simp [credit, Adders.goto, update_of_ne hu]

/-- The write of the counter, by the only thread inside. -/
theorem write {value : Nat} (h : Orderly rounds σ) (hpc : σ.pc t = .write value) :
    Orderly rounds ({ σ with retSum := value + 1 }.goto t .store) where
  guarded := h.guarded.stay (by simp [hpc, Pc.Inside])
  fits u := by
    have hfits := h.fits u
    by_cases hu : u = t
    · subst hu
      rw [hpc] at hfits
      have hlt : σ.i u < rounds u := hfits.1
      simpa [Adders.goto, Fits] using hlt
    · -- the others are outside, where the counter's value does not matter
      have hout : ¬ (σ.pc u).Inside := by
        intro hin
        exact hu (h.guarded.alone u t hin (by rw [hpc]; trivial))
      simpa [Adders.goto, update_of_ne hu] using hfits.outside hout (value + 1)
  counted := by
    have hfits := h.fits t
    rw [hpc] at hfits
    show value + 1 = _
    rw [sum_credit (σ := σ) t (k := 1), ← h.counted, hfits.2]
    · simp [credit, Adders.goto, hpc]
    · intro u hu
      simp [credit, Adders.goto, update_of_ne hu]

/-- The store in `unlock()`, behind which the round is counted in `i`. -/
theorem release (h : Orderly rounds σ) (hpc : σ.pc t = .store) :
    Orderly rounds ({ σ with locker := ⟨false⟩, i := update σ.i t (σ.i t + 1) }.goto t .test) where
  guarded := h.guarded.leave (t := t) (by rw [hpc]; trivial) (fun hin => hin)
  fits u := by
    have hfits := h.fits u
    by_cases hu : u = t
    · subst hu
      rw [hpc] at hfits
      have hlt : σ.i u < rounds u := hfits
      simpa [Adders.goto, Fits] using Nat.succ_le_of_lt hlt
    · simpa [Adders.goto, update_of_ne hu] using hfits
  counted := by
    show σ.retSum = _
    rw [sum_credit (σ := σ) t (k := 0), ← h.counted, Nat.add_zero]
    · simp [credit, Adders.goto, hpc]
    · intro u hu
      simp [credit, Adders.goto, update_of_ne hu]

/-- Every step of every thread keeps the invariant. -/
theorem step (h : Orderly rounds σ) (hstep : σ.next rounds t = some σ') : Orderly rounds σ' := by
  have hfits := h.fits t
  cases next_moves hstep with
  | test pc' hpc hpc' =>
      rw [hpc] at hfits
      rcases hpc' with ⟨hlt, rfl⟩ | ⟨hge, rfl⟩
      · exact h.goto (by simp [hpc, Pc.Inside]) (by simp [hpc]) (by simp) hlt
      · exact h.goto (by simp [hpc, Pc.Inside]) (by simp [hpc]) (by simp)
          (Nat.le_antisymm hfits hge)
  | retry pc' hpc hpc' =>
      have hlt : σ.i t < rounds t := by
        rcases hpc with ⟨n, hpc⟩ | hpc <;> rwa [hpc] at hfits
      apply h.goto
      · rcases hpc with ⟨n, hpc⟩ | hpc <;> rcases hpc' with ⟨m, rfl⟩ | rfl <;> simp [hpc, Pc.Inside]
      · rcases hpc with ⟨n, hpc⟩ | hpc <;> simp [hpc]
      · rcases hpc' with ⟨m, rfl⟩ | rfl <;> simp
      · rcases hpc' with ⟨m, rfl⟩ | rfl <;> exact hlt
  | acquire n hpc hfree => exact h.acquire hpc hfree
  | read hpc =>
      rw [hpc] at hfits
      exact h.goto (by simp [hpc, Pc.Inside]) (by simp [hpc]) (by simp) ⟨hfits, rfl⟩
  | write value hpc => exact h.write hpc
  | release hpc => exact h.release hpc

theorem invariant (rounds : ι → Nat) : (interleavings rounds).Invariant (Orderly rounds) := by
  apply TSys.Inductive.invariant
  constructor
  · intro σ hσ
    rw [hσ]
    exact start
  · intro σ t σ' h hstep
    exact h.step hstep

omit [DecidableEq ι] in
/-- No round is counted twice, so the counter never exceeds the rounds there are. -/
theorem retSum_le (h : Orderly rounds σ) : σ.retSum ≤ ∑ t, rounds t := by
  rw [h.counted]
  exact Finset.sum_le_sum fun t _ => (h.fits t).le

end Orderly

/-- In `main` the counter, an `int`, does not overflow. -/
theorem main_retSum_lt {σ : Adders (Fin 8)}
    (h : (interleavings fun _ => 100000).Reachable σ) : σ.retSum < 2 ^ 31 := by
  have hle := (Orderly.invariant _ σ h).retSum_le
  rw [Finset.sum_const, Finset.card_univ, Fintype.card_fin] at hle
  exact Nat.lt_of_le_of_lt hle (by decide)

/-- **Mutual exclusion.** In every interleaving at most one thread is between a successful
`lock()` and its `unlock()`. The counter never exceeds the rounds to be made, and is their
number when all threads have finished. -/
theorem lock_excludes (rounds : ι → Nat) (h : (interleavings rounds).Reachable σ) :
    (∀ t u, (σ.pc t).Inside → (σ.pc u).Inside → t = u) ∧
      σ.retSum ≤ ∑ t, rounds t ∧
      ((∀ t, σ.pc t = .finished) → σ.retSum = ∑ t, rounds t) := by
  have horderly := Orderly.invariant rounds σ h
  refine ⟨horderly.guarded.alone, horderly.retSum_le, ?_⟩
  intro hfinished
  rw [horderly.counted]
  apply Finset.sum_congr rfl
  intro t _
  have hfits := horderly.fits t
  rw [hfinished t] at hfits
  simp [credit, hfinished t, show σ.i t = rounds t from hfits]

/-- The state after the threads took their steps in the order of `ts`. -/
def steps (rounds : ι → Nat) : Adders ι → List ι → Option (Adders ι)
  | σ, [] => some σ
  | σ, t :: ts => (σ.next rounds t).bind (steps rounds · ts)

omit [Fintype ι] in
theorem steps_reachable (h : (interleavings rounds).Reachable σ) {ts : List ι}
    (hsteps : σ.steps rounds ts = some σ') : (interleavings rounds).Reachable σ' := by
  induction ts generalizing σ with
  | nil =>
      cases hsteps
      exact h
  | cons t ts ih =>
      unfold steps at hsteps
      cases hnext : σ.next rounds t with
      | none =>
          rw [hnext] at hsteps
          cases hsteps
      | some τ =>
          rw [hnext] at hsteps
          exact ih (h.step hnext) hsteps

/-- Two threads with a round each; the second finds the lock taken before it gets it. -/
def contention : List Bool :=
  [false, false, true, true, true, false, false, false, true, true, true, true, true, false]

def afterContention : Adders Bool := (start.steps (fun _ => 1) contention).get rfl

theorem afterContention_reachable :
    (interleavings fun _ : Bool => 1).Reachable afterContention :=
  steps_reachable (.init rfl) (Option.some_get _).symm

/-- The theorem at these two threads: both rounds are counted. -/
theorem lock_excludes_two : afterContention.retSum = ∑ _t : Bool, 1 :=
  (lock_excludes _ afterContention_reachable).2.2 (by decide)

end Adders
end LearnSpace.DataStructure
