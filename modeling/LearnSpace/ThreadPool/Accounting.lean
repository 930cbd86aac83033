import LearnSpace.ThreadPool.Pool

/-!
# Where every task is

A pushed task waits in the queue, is run by one worker, is completed, or was
discarded by `close`. `Accounts` counts a task over these four places and
finds one of each pushed task and none of any other; a task only ever moves
from one place to another, so each step keeps the count. The queue's order is
in `order`: what has been taken and what still waits is in push order.
-/

namespace LearnSpace.ThreadPool

open Keel Keel.CondVar

variable {n : Nat} {P : Type}

namespace State

/-- How often task `t` is found, over all places. -/
def found (s : State n P) (t : Nat) : Nat :=
  s.tasks.count t + tally s.works (.running t) + s.completed.count t + s.discarded.count t

end State

/-- The inductive invariant of the accounting. -/
structure Accounts (s : State n P) : Prop where
  found : ∀ t, s.found t = if t < s.pushed then 1 else 0
  started : ∀ t, s.taken.count t = tally s.works (.running t) + s.completed.count t
  order : (s.taken ++ s.tasks).Pairwise (· < ·)
  unclosed : s.closer = .notCalled → s.discarded = []
  sound : ∀ w, s.works w ≠ .away .crashed

namespace Accounts

variable {s : State n P}

theorem new : Accounts (State.new : State n P) where
  found t := by simp [State.found, State.new, tally]
  started t := by simp [State.new, tally]
  order := List.Pairwise.nil
  unclosed _ := rfl
  sound w := by simp [State.new]

/-- What is found has been pushed. -/
theorem lt_pushed (h : Accounts s) {t : Nat} (ht : 0 < s.found t) : t < s.pushed := by
  rw [h.found t] at ht
  split at ht
  · assumption
  · omega

/-- What has been taken or waits has been pushed. -/
theorem lt_pushed_of_mem (h : Accounts s) {t : Nat} (ht : t ∈ s.taken ++ s.tasks) :
    t < s.pushed := by
  apply h.lt_pushed
  have hstarted := h.started t
  unfold State.found
  rcases List.mem_append.mp ht with htaken | htasks
  · have := List.count_pos_iff.mpr htaken
    omega
  · have := List.count_pos_iff.mpr htasks
    omega

/-- One more number below the bound, namely the bound itself. -/
theorem ite_lt_succ (t m : Nat) :
    (if t < m + 1 then 1 else 0) = (if t < m then 1 else 0) + (if m = t then 1 else 0) := by
  split_ifs <;> omega

/-- A push puts the next serial number at the end of the queue. -/
theorem push (h : Accounts s) : Accounts s.push where
  found t := by
    have hfound : s.found t = if t < s.pushed then 1 else 0 := h.found t
    show (s.tasks ++ [s.pushed]).count t + tally s.works (.running t) +
      s.completed.count t + s.discarded.count t = if t < s.pushed + 1 then 1 else 0
    unfold State.found at hfound
    rw [List.count_append, List.count_singleton, ite_lt_succ, ← hfound]
    simp only [beq_iff_eq]
    omega
  started := h.started
  order := by
    show (s.taken ++ (s.tasks ++ [s.pushed])).Pairwise (· < ·)
    rw [← List.append_assoc, List.pairwise_append]
    refine ⟨h.order, List.pairwise_singleton _ _, ?_⟩
    intro t ht u hu
    rw [List.mem_singleton.mp hu]
    exact h.lt_pushed_of_mem ht
  unclosed := h.unclosed
  sound := h.sound

/-- So does a whole vector, push by push. -/
theorem pushLoop (size : Nat) (h : Accounts s) : Accounts (s.pushLoop size) := by
  induction size generalizing s with
  | zero => exact h
  | succ size ih => exact ih h.push

/-- The callers' places do not count. -/
theorem withCallers (h : Accounts s) (callers : P → Caller) :
    Accounts { s with callers := callers } :=
  ⟨h.found, h.started, h.order, h.unclosed, h.sound⟩

/-- Nor does the place of `close`, once it was called. -/
theorem withCloser (h : Accounts s) {closer : Closer} (hcalled : closer ≠ .notCalled) :
    Accounts { s with closer := closer } :=
  ⟨h.found, h.started, h.order, fun hnot => absurd hnot hcalled, h.sound⟩

/-- A step after which the workers run what they ran before moves no task. -/
theorem withWorks (h : Accounts s) {works : Fin n → Thread Work}
    (hrun : ∀ t, tally works (.running t) = tally s.works (.running t))
    (hsound : ∀ w, works w ≠ .away .crashed) : Accounts { s with works := works } := by
  refine ⟨fun t => ?_, fun t => ?_, h.order, h.unclosed, hsound⟩
  · have hfound := h.found t
    unfold State.found at hfound ⊢
    rwa [hrun t]
  · show s.taken.count t = tally works (.running t) + s.completed.count t
    rw [hrun t]
    exact h.started t

/-- What happens at the condition variable moves no task. -/
theorem woken (h : Accounts s) {works : Fin n → Thread Work}
    (haway : ∀ w a, works w = .away a ↔ s.works w = .away a) :
    Accounts { s with works := works } :=
  h.withWorks (fun _ => tally_congr (fun w => haway w _))
    (fun w hw => h.sound w ((haway w _).mp hw))

/-- No worker crashes by a move to `x`. -/
theorem sound_update (h : Accounts s) (w : Fin n) {x : Thread Work} (hx : x ≠ .away .crashed) :
    ∀ v, Function.update s.works w x v ≠ .away .crashed := by
  intro v
  by_cases hv : v = w
  · subst hv
    rwa [Function.update_self]
  · rw [Function.update_of_ne hv]
    exact h.sound v

/-- A worker that runs nothing goes where it runs nothing. -/
theorem move (h : Accounts s) (w : Fin n) {x : Thread Work}
    (hfrom : ∀ t, s.works w ≠ .away (.running t)) (hto : ∀ t, x ≠ .away (.running t))
    (hx : x ≠ .away .crashed) : Accounts (s.move w x) := by
  refine h.withWorks (fun t => ?_) (h.sound_update w hx)
  have hupdate := tally_update s.works w x (.running t)
  rwa [if_neg (hfrom t), if_neg (hto t)] at hupdate

/-- The front task goes from the queue to a worker that ran nothing. -/
theorem take (h : Accounts s) (w : Fin n) (hready : s.works w = .ready) {task : Nat}
    {rest : List Nat} (htasks : s.tasks = task :: rest) :
    Accounts { s.move w (.away (.running task)) with
      tasks := rest
      taken := s.taken ++ [task] } := by
  have htally : ∀ t, tally (Function.update s.works w (.away (.running task))) (.running t) =
      tally s.works (.running t) + if task = t then 1 else 0 := by
    intro t
    have hupdate := tally_update s.works w (.away (.running task)) (.running t)
    simpa [hready] using hupdate
  refine ⟨fun t => ?_, fun t => ?_, ?_, h.unclosed, h.sound_update w (by simp)⟩
  · have hfound := h.found t
    unfold State.found at hfound
    rw [htasks, List.count_cons] at hfound
    show rest.count t + tally (Function.update s.works w _) (.running t) +
      s.completed.count t + s.discarded.count t = if t < s.pushed then 1 else 0
    rw [htally, ← hfound]
    simp only [beq_iff_eq]
    omega
  · have hstarted := h.started t
    show (s.taken ++ [task]).count t =
      tally (Function.update s.works w _) (.running t) + s.completed.count t
    rw [htally, List.count_append, List.count_singleton]
    simp only [beq_iff_eq]
    omega
  · -- the front of the queue becomes the last that was taken
    show ((s.taken ++ [task]) ++ rest).Pairwise (· < ·)
    have horder := h.order
    rwa [htasks, List.append_cons] at horder

/-- A worker's section: only the last of its cases touches the tasks. -/
theorem doRun (h : Accounts s) (w : Fin n) (hready : s.works w = .ready) :
    Accounts (s.doRun w) := by
  have hfrom : ∀ t, s.works w ≠ .away (.running t) := by simp [hready]
  rcases s.doRun_cases w with ⟨_, _, heq⟩ | ⟨_, _, heq⟩ | ⟨task, rest, htasks, heq⟩
  · rw [heq]
    exact h.move w hfrom (by simp) (by simp)
  · rw [heq]
    exact h.move w hfrom (by simp) (by simp)
  · rw [heq]
    exact h.take w hready htasks

/-- A task whose `doRun` returns goes from its worker to the completed ones. -/
theorem finish (h : Accounts s) (w : Fin n) {task : Nat}
    (hrun : s.works w = .away (.running task)) : Accounts (s.finish w task) := by
  have hmoved : ∀ t, tally (Function.update s.works w .ready) (.running t) +
      (s.completed ++ [task]).count t =
        tally s.works (.running t) + s.completed.count t := by
    intro t
    have hupdate := tally_update s.works w .ready (.running t)
    simp only [hrun, Thread.away.injEq, Work.running.injEq, reduceCtorEq, if_false] at hupdate
    simp only [List.count_append, List.count_singleton, beq_iff_eq]
    omega
  refine ⟨fun t => ?_, fun t => ?_, h.order, h.unclosed, h.sound_update w (by simp)⟩
  · have hfound := h.found t
    unfold State.found at hfound
    show s.tasks.count t + tally (Function.update s.works w .ready) (.running t) +
      (s.completed ++ [task]).count t + s.discarded.count t = if t < s.pushed then 1 else 0
    rw [← hfound, Nat.add_assoc (s.tasks.count t), hmoved t, ← Nat.add_assoc]
  · show s.taken.count t = tally (Function.update s.works w .ready) (.running t) +
      (s.completed ++ [task]).count t
    rw [hmoved t]
    exact h.started t

/-- `close` discards what waits. -/
theorem close (h : Accounts s) : Accounts s.close := by
  have hwoken : Accounts { s with works := wakeAll s.works } :=
    h.woken (wakeAll_eq_away s.works)
  refine ⟨fun t => ?_, hwoken.started, ?_, fun hcalled => ?_, hwoken.sound⟩
  · have hfound : s.tasks.count t + tally (wakeAll s.works) (.running t) +
        s.completed.count t + s.discarded.count t = if t < s.pushed then 1 else 0 :=
      hwoken.found t
    show 0 + tally (wakeAll s.works) (.running t) + s.completed.count t +
      (s.discarded ++ s.tasks).count t = if t < s.pushed then 1 else 0
    rw [List.count_append, ← hfound]
    omega
  · show (s.taken ++ []).Pairwise (· < ·)
    rw [List.append_nil]
    exact (List.pairwise_append.mp h.order).1
  · cases hcalled

end Accounts

section
variable [DecidableEq P]

/-- Every move of every party keeps the accounts. -/
theorem Accounts.inductive : (pool n P).Inductive Accounts := by
  refine ⟨?_, ?_⟩
  · rintro s rfl
    exact Accounts.new
  · intro s e s' h hstep
    cases hstep with
    | addTask p _ => exact h.push.withCallers _
    | addTasks p size _ => exact (h.pushLoop size).withCallers _
    | notifyOne p works _ hone => exact (h.woken hone.away_iff).withCallers _
    | notifyAll p size _ => exact (h.woken (wakeAll_eq_away s.works)).withCallers _
    | doRun w hready => exact h.doRun w hready
    | finish w task hrun => exact h.finish w hrun
    | spurious w hblocked =>
        exact h.move w (by simp [hblocked]) (by simp) (by simp)
    | close _ => exact h.close
    | join w _ _ => exact h.withCloser (by simp)
    | clear _ => exact h.withCloser (by simp)

end

/-- Where a pushed task can be. -/
inductive Place (n : Nat) where
  | waiting
  | running (w : Fin n)
  | completed
  | discarded
  deriving DecidableEq

/-- Task `t` is at a place. -/
def State.At (s : State n P) (t : Nat) : Place n → Prop
  | .waiting => t ∈ s.tasks
  | .running w => s.works w = .away (.running t)
  | .completed => t ∈ s.completed
  | .discarded => t ∈ s.discarded

/-- How often a task is found at a place of the same kind. -/
def State.held (s : State n P) (t : Nat) : Place n → Nat
  | .waiting => s.tasks.count t
  | .running _ => tally s.works (.running t)
  | .completed => s.completed.count t
  | .discarded => s.discarded.count t

namespace State

variable {s : State n P} {t : Nat}

theorem held_pos {place : Place n} (h : s.At t place) : 0 < s.held t place := by
  cases place with
  | running w => exact tally_pos.mpr ⟨w, h⟩
  | waiting | completed | discarded => exact List.count_pos_iff.mpr h

theorem held_le_found (place : Place n) : s.held t place ≤ s.found t := by
  unfold found
  cases place <;> simp only [held] <;> omega

/-- A task is found if it is at a place. -/
theorem found_pos : 0 < s.found t ↔ ∃ place, s.At t place := by
  constructor
  · intro hfound
    unfold found at hfound
    by_cases htasks : t ∈ s.tasks
    · exact ⟨.waiting, htasks⟩
    by_cases hcompleted : t ∈ s.completed
    · exact ⟨.completed, hcompleted⟩
    by_cases hdiscarded : t ∈ s.discarded
    · exact ⟨.discarded, hdiscarded⟩
    rw [List.count_eq_zero.mpr htasks, List.count_eq_zero.mpr hcompleted,
      List.count_eq_zero.mpr hdiscarded] at hfound
    obtain ⟨w, hw⟩ := tally_pos.mp (by omega : 0 < tally s.works (.running t))
    exact ⟨.running w, hw⟩
  · rintro ⟨place, hat⟩
    exact Nat.lt_of_lt_of_le (held_pos hat) (held_le_found place)

/-- A task that is found once is at one place only. -/
theorem At.unique {p q : Place n} (hp : s.At t p) (hq : s.At t q) (hfound : s.found t ≤ 1) :
    p = q := by
  have hp' := held_pos hp
  have hq' := held_pos hq
  unfold found at hfound
  -- places of two kinds would be found twice
  cases p <;> cases q <;> simp only [held] at hp' hq' <;> try (first | rfl | omega)
  -- so would two workers
  rw [eq_of_tally_le_one (by omega) hp hq]

end State

/-- The books of the pool. -/
structure Accounted (s : State n P) : Prop where
  /-- a pushed task is in exactly one place -/
  place : ∀ t, t < s.pushed → ∃! place, s.At t place
  /-- and only pushed tasks are anywhere -/
  pushed : ∀ t place, s.At t place → t < s.pushed
  /-- no place holds a task twice -/
  nodup : s.tasks.Nodup ∧ s.completed.Nodup ∧ s.discarded.Nodup
  /-- a task a worker took is run now or completed, and was taken once -/
  taken : s.taken.Nodup ∧
    ∀ t, t ∈ s.taken ↔ (∃ w, s.At t (.running w)) ∨ s.At t .completed
  /-- tasks are taken in push order, and none that waits was pushed before -/
  order : s.taken.Pairwise (· < ·) ∧ s.tasks.Pairwise (· < ·) ∧
    ∀ t ∈ s.taken, ∀ u ∈ s.tasks, t < u
  /-- before `close` nothing is discarded -/
  unclosed : s.closer = .notCalled → ∀ t, ¬ s.At t .discarded
  /-- no worker called `front()` or `pop()` on an empty queue -/
  sound : ∀ w, s.works w ≠ .away .crashed

/-- What the accounts say of the places. -/
theorem Accounts.accounted {s : State n P} (h : Accounts s) : Accounted s := by
  have hle : ∀ t, s.found t ≤ 1 := by
    intro t
    rw [h.found t]
    split <;> omega
  have hnodup : ∀ (l : List Nat), (∀ t, l.count t ≤ s.found t) → l.Nodup :=
    fun l hl => List.nodup_iff_count_le_one.mpr (fun t => Nat.le_trans (hl t) (hle t))
  have horder := List.pairwise_append.mp h.order
  refine ⟨?_, ?_, ⟨?_, ?_, ?_⟩, ⟨?_, ?_⟩, horder, ?_, h.sound⟩
  · intro t ht
    have hpos : 0 < s.found t := by
      rw [h.found t, if_pos ht]
      omega
    obtain ⟨place, hat⟩ := State.found_pos.mp hpos
    exact ⟨place, hat, fun _ hother => hother.unique hat (hle t)⟩
  · intro t place hat
    exact h.lt_pushed (State.found_pos.mpr ⟨place, hat⟩)
  · exact hnodup _ (fun _ => State.held_le_found .waiting)
  · exact hnodup _ (fun _ => State.held_le_found .completed)
  · exact hnodup _ (fun _ => State.held_le_found .discarded)
  · exact horder.1.imp Nat.ne_of_lt
  · intro t
    show t ∈ s.taken ↔ (∃ w, s.works w = .away (.running t)) ∨ t ∈ s.completed
    rw [← tally_pos, ← List.count_pos_iff, ← List.count_pos_iff, h.started t]
    omega
  · intro hclosed t hat
    have hmem : t ∈ s.discarded := hat
    rw [h.unclosed hclosed] at hmem
    cases hmem

/-- **Task accounting.** For every number of workers and under every
interleaving of the callers, the workers and `close`, each pushed task is at
each moment in exactly one place, tasks are taken in push order, and the
queue is never popped empty; a task becomes discarded in the step of `close`
only. -/
theorem pool_accounts_for_tasks [DecidableEq P] :
    (pool n P).Invariant Accounted ∧
    ∀ s e s', (pool n P).step s e s' → e ≠ .close →
      ∀ t, s'.At t .discarded → s.At t .discarded := by
  refine ⟨fun s hs => (Accounts.inductive.invariant s hs).accounted, ?_⟩
  -- no other step touches the record of the discarded
  intro s e s' hstep hclose t hat
  cases hstep with
  | addTasks p size _ => rwa [State.addTasks, State.pushLoop_eq] at hat
  | doRun w _ =>
      rcases s.doRun_cases w with ⟨_, _, heq⟩ | ⟨_, _, heq⟩ | ⟨_, _, _, heq⟩ <;>
        rwa [heq] at hat
  | close _ => exact absurd rfl hclose
  | addTask | notifyOne | notifyAll | finish | spurious | join | clear => exact hat

/-- Two tasks are pushed, the first is taken and runs. -/
theorem pool_accounts_for_tasks_running :
    let s : State 1 Unit := (State.new.addTasks () 2).doRun 0
    s.tasks = [1] ∧ s.taken = [0] ∧ Accounted s := by
  refine ⟨by decide, by decide, pool_accounts_for_tasks.1 _ ?_⟩
  have hnew : (pool 1 Unit).Reachable .new := .init rfl
  have hpushed : (pool 1 Unit).Reachable (State.new.addTasks () 2) :=
    hnew.step (Step.addTasks () 2 rfl)
  exact hpushed.step (Step.doRun 0 rfl)

end LearnSpace.ThreadPool
