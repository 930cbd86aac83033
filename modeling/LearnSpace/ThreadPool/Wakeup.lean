import LearnSpace.ThreadPool.Pool

/-!
# The pool does not sleep on work or on shutdown

A notify that is issued behind the unlock can meet a worker that has tested
the predicate and sleeps, or one that has taken the task in between. What
survives every interleaving is `Wakeful`: while there is a task, a worker is
awake or a caller of `addTask` still owes its notify. Behind `close` the flag
stays set, and no worker whose predicate holds goes to sleep.
-/

namespace LearnSpace.ThreadPool

open Keel Keel.CondVar

variable {n : Nat} {P : Type}

/-- The inductive invariant of the wake-ups. -/
structure Wakeful (s : State n P) : Prop where
  work : s.tasks ≠ [] → Awake s.works ∨ ∃ p, (s.callers p).Pending
  flagged : s.closer ≠ .notCalled → s.flag = true
  shutdown : s.flag = true → ∀ w, s.works w ≠ .blocked

namespace Wakeful

variable {s : State n P}

theorem new : Wakeful (State.new : State n P) where
  work h := absurd rfl h
  flagged h := absurd rfl h
  shutdown h := by cases h

/-- A move of a worker to anywhere but its sleep. -/
theorem move (h : Wakeful s) (w : Fin n) {t : Thread Work} (ht : t ≠ .blocked) :
    Wakeful (s.move w t) where
  work _ := .inl (awake_update _ w ht)
  flagged := h.flagged
  shutdown hflag := ne_blocked_update ht (h.shutdown hflag)

/-- A worker that sleeps has seen neither task nor flag. -/
theorem doRun (h : Wakeful s) (w : Fin n) : Wakeful (s.doRun w) := by
  rcases s.doRun_cases w with ⟨htasks, hflag, heq⟩ | ⟨_, _, heq⟩ | ⟨task, rest, _, heq⟩
  · -- it goes to sleep
    rw [heq]
    refine ⟨fun hne => absurd htasks hne, h.flagged, fun htrue => ?_⟩
    have hfalse : s.flag = true := htrue
    rw [hflag] at hfalse
    cases hfalse
  · rw [heq]
    exact h.move w (by simp)
  · rw [heq]
    have hmove := h.move w (t := .away (.running task)) (by simp)
    exact ⟨fun _ => .inl (awake_update _ w (by simp)), hmove.flagged, hmove.shutdown⟩

theorem close (s : State n P) : Wakeful s.close where
  work h := absurd rfl h
  flagged _ := rfl
  shutdown _ := wakeAll_ne_blocked s.works

variable [DecidableEq P]

/-- What is notified leaves a worker awake, so the caller's debt is paid. -/
theorem notified (h : Wakeful s) (p : P) {works : Fin n → Thread Work}
    (hwork : Awake works)
    (hmono : (∀ w, s.works w ≠ .blocked) → ∀ w, works w ≠ .blocked) :
    Wakeful (s.notifyOne p works) where
  work _ := .inl hwork
  flagged := h.flagged
  shutdown hflag := hmono (h.shutdown hflag)

/-- A caller that has pushed owes its notify; one that has pushed nothing
changes nothing that counts. -/
theorem addTasks (h : Wakeful s) (p : P) (hidle : s.callers p = .idle) (size : Nat)
    {c : Caller} (hc : 0 < size → c.Pending) :
    Wakeful { s.pushLoop size with callers := Function.update s.callers p c } := by
  rw [State.pushLoop_eq]
  refine ⟨fun hne => ?_, h.flagged, h.shutdown⟩
  by_cases hsize : 0 < size
  · right
    exact ⟨p, by simpa using hc hsize⟩
  · -- nothing is pushed: who owed a notify before is not `p`
    have hold : s.tasks ≠ [] := by
      obtain rfl : size = 0 := by omega
      simpa using hne
    rcases h.work hold with hawake | ⟨q, hq⟩
    · exact .inl hawake
    · right
      refine ⟨q, ?_⟩
      have hqp : q ≠ p := by
        rintro rfl
        rw [hidle] at hq
        exact hq
      show (Function.update s.callers p c q).Pending
      rwa [Function.update_of_ne hqp]

end Wakeful

variable [DecidableEq P]

/-- Every move of every party keeps the invariant. -/
theorem Wakeful.inductive (hn : 0 < n) : (pool n P).Inductive Wakeful := by
  have : Nonempty (Fin n) := ⟨⟨0, hn⟩⟩
  refine ⟨?_, ?_⟩
  · rintro s rfl
    exact Wakeful.new
  · intro s e s' h hstep
    cases hstep with
    | addTask p hidle => exact h.addTasks p hidle 1 (fun _ => trivial)
    | addTasks p size hidle => exact h.addTasks p hidle size (fun hsize => hsize)
    | notifyOne p works _ hone => exact h.notified p hone.awake hone.ne_blocked
    | notifyAll p size _ =>
        have hawake : Awake (wakeAll s.works) :=
          ⟨⟨0, hn⟩, wakeAll_ne_blocked s.works _⟩
        exact h.notified p hawake (fun _ => wakeAll_ne_blocked s.works)
    | doRun w _ => exact h.doRun w
    | finish w task _ =>
        have hmove := h.move w (t := .ready) (by simp)
        exact ⟨hmove.work, hmove.flagged, hmove.shutdown⟩
    | spurious w _ => exact h.move w (by simp)
    | close _ => exact Wakeful.close s
    | join w hjoining _ =>
        exact ⟨h.work, fun _ => h.flagged (by simp [hjoining]), h.shutdown⟩
    | clear hjoining =>
        exact ⟨h.work, fun _ => h.flagged (by simp [hjoining]), h.shutdown⟩

/-- What the condition variable is for. -/
structure NeverSleeps (s : State n P) : Prop where
  /-- with work in the queue and every worker asleep, a caller that has pushed
  is about to notify -/
  work : s.tasks ≠ [] → (∀ w, s.works w = .blocked) → ∃ p, (s.callers p).Pending
  /-- behind the unlock of `close` nobody sleeps -/
  shutdown : s.closer ≠ .notCalled → ∀ w, s.works w ≠ .blocked
  /-- so no join waits for a sleeping worker -/
  join : ∀ w : Fin n, s.closer = .joining w → s.works w ≠ .blocked

/-- **No lost wake-up.** In every reachable state of a pool with a worker,
under any interleaving of callers, workers and `close`, nobody sleeps on work
that no notify is on its way for, and nobody sleeps behind `close`. -/
theorem pool_never_sleeps (hn : 0 < n) : (pool n P).Invariant NeverSleeps := by
  intro s hs
  have h : Wakeful s := (Wakeful.inductive hn).invariant s hs
  have hshutdown : s.closer ≠ .notCalled → ∀ w, s.works w ≠ .blocked :=
    fun hcalled => h.shutdown (h.flagged hcalled)
  refine ⟨?_, hshutdown, ?_⟩
  · intro htasks hblocked
    rcases h.work htasks with ⟨w, hw⟩ | hpending
    · exact absurd (hblocked w) hw
    · exact hpending
  · intro w hjoining
    exact hshutdown (by simp [hjoining]) w

/-- The only worker sleeps, a task is pushed, and its notify is still to
come. -/
theorem pool_never_sleeps_pushed :
    let s : State 1 Unit := (State.new.doRun 0).addTask ()
    s.tasks ≠ [] ∧ (∀ w, s.works w = .blocked) ∧ NeverSleeps s := by
  refine ⟨by decide, by decide, pool_never_sleeps Nat.zero_lt_one _ ?_⟩
  have hnew : (pool 1 Unit).Reachable .new := .init rfl
  have hslept : (pool 1 Unit).Reachable (State.new.doRun 0) := hnew.step (Step.doRun 0 rfl)
  exact hslept.step (Step.addTask () rfl)

end LearnSpace.ThreadPool
