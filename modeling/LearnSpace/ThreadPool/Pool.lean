import LearnSpace.Keel.TSys
import LearnSpace.Keel.CondVar

/-!
# The thread pool

`ThreadPool` and `ThreadWork` as parties of one transition system: `n`
workers, any set `P` of threads that call `addTask`, and the one thread that
destroys the pool. A section under `_mutex` is one step. The `notify` of
`addTask` is issued behind the unlock and is a step of its own; the
`notify_all` of `close` is issued under the lock and belongs to its section.

A task is named by the serial number of its push, so a `TaskPtr` that is
pushed twice is two tasks. The last four fields of the state are a record of
what happened; no step reads them.
-/

namespace LearnSpace.ThreadPool

open Keel Keel.CondVar

/-- Where a worker is when it neither waits for `_mutex` nor sleeps. -/
inductive Work where
  /-- in `taskPtr->doRun()`, the mutex released -/
  | running (task : Nat)
  /-- its thread has ended -/
  | exited
  /-- it called `front()` on an empty queue: undefined behaviour -/
  | crashed
  deriving DecidableEq

/-- Where a caller of `addTask` is. -/
inductive Caller where
  | idle
  /-- it pushed one task and has released the mutex -/
  | notifyOne
  /-- it pushed the `size` tasks of a vector and has released the mutex -/
  | notifyAll (size : Nat)
  deriving DecidableEq

/-- The call has pushed a task and not yet issued its notify. -/
def Caller.Pending : Caller → Prop
  | .idle => False
  | .notifyOne => True
  | .notifyAll size => 0 < size

/-- Where `close()` is. -/
inductive Closer where
  | notCalled
  /-- the mutex is released, and it joins worker `i` next -/
  | joining (i : Nat)
  /-- behind `_works.clear()` -/
  | closed
  deriving DecidableEq

/-- The pool, its threads and the record of their doings. -/
structure State (n : Nat) (P : Type) where
  tasks : List Nat
  flag : Bool
  works : Fin n → Thread Work
  callers : P → Caller
  closer : Closer
  /-- how many tasks have been pushed -/
  pushed : Nat
  /-- the tasks popped by workers, oldest first -/
  taken : List Nat
  /-- the tasks whose `doRun` has returned -/
  completed : List Nat
  /-- the tasks that `close` swapped out of the queue -/
  discarded : List Nat

namespace State

variable {n : Nat} {P : Type}

/-- The constructor: no task, `_flag` false, every worker at the top of its
loop. -/
def new : State n P where
  tasks := []
  flag := false
  works := fun _ => .ready
  callers := fun _ => .idle
  closer := .notCalled
  pushed := 0
  taken := []
  completed := []
  discarded := []

/-- `_tasks.push(task)`. -/
def push (s : State n P) : State n P :=
  { s with tasks := s.tasks ++ [s.pushed], pushed := s.pushed + 1 }

/-- The `for` loop of `addTask` over a vector of `size` tasks. -/
def pushLoop : Nat → State n P → State n P
  | 0, s => s
  | size + 1, s => pushLoop size s.push

/-- `addTask(const TaskPtr&)`, up to the unlock. -/
def addTask [DecidableEq P] (s : State n P) (p : P) : State n P :=
  { s.push with callers := Function.update s.callers p .notifyOne }

/-- `addTask(const std::vector<TaskPtr>&)`, up to the unlock. -/
def addTasks [DecidableEq P] (s : State n P) (p : P) (size : Nat) : State n P :=
  { s.pushLoop size with callers := Function.update s.callers p (.notifyAll size) }

/-- The `notify_all` of a caller, behind the unlock. -/
def notifyAll [DecidableEq P] (s : State n P) (p : P) : State n P :=
  { s with works := wakeAll s.works, callers := Function.update s.callers p .idle }

/-- The `notify_one` of a caller, behind the unlock, if it leaves the workers
as `works`. -/
def notifyOne [DecidableEq P] (s : State n P) (p : P) (works : Fin n → Thread Work) :
    State n P :=
  { s with works := works, callers := Function.update s.callers p .idle }

/-- Worker `w` goes to `t`. -/
def move (s : State n P) (w : Fin n) (t : Thread Work) : State n P :=
  { s with works := Function.update s.works w t }

/-- The predicate of the wait in `doRun`. -/
def canRun (s : State n P) : Bool := !s.tasks.isEmpty || s.flag

/-- `doRun` from the moment worker `w` gets the mutex to the moment it
releases it: back in `wait`, out of the loop, or with a task. -/
def doRun (s : State n P) (w : Fin n) : State n P :=
  if !s.canRun then s.move w .blocked
  else if s.tasks.isEmpty && s.flag then s.move w (.away .exited)
  else
    match s.tasks with
    | [] => s.move w (.away .crashed)
    | task :: rest =>
      { s.move w (.away (.running task)) with
        tasks := rest
        taken := s.taken ++ [task] }

/-- `taskPtr->doRun()` of worker `w` returns, and the loop starts over. -/
def finish (s : State n P) (w : Fin n) (task : Nat) : State n P :=
  { s.move w .ready with completed := s.completed ++ [task] }

/-- `close()`, up to its unlock. -/
def close (s : State n P) : State n P :=
  { s with
    tasks := []
    flag := true
    works := wakeAll s.works
    closer := .joining 0
    discarded := s.discarded ++ s.tasks }

/-- The cases of a worker's section: with no task and no flag it sleeps, with
no task and the flag it ends, else it takes the front task. `front()` and
`pop()` are not reached with an empty queue. -/
theorem doRun_cases (s : State n P) (w : Fin n) :
    (s.tasks = [] ∧ s.flag = false ∧ s.doRun w = s.move w .blocked) ∨
    (s.tasks = [] ∧ s.flag = true ∧ s.doRun w = s.move w (.away .exited)) ∨
    (∃ task rest, s.tasks = task :: rest ∧
      s.doRun w = { s.move w (.away (.running task)) with
        tasks := rest
        taken := s.taken ++ [task] }) := by
  unfold doRun canRun
  cases htasks : s.tasks with
  | nil =>
      cases hflag : s.flag with
      | false => left; simp
      | true => right; left; simp
  | cons task rest =>
      right; right
      exact ⟨task, rest, rfl, by simp⟩

/-- The loop pushes the next `size` serial numbers and touches nothing else. -/
theorem pushLoop_eq (size : Nat) (s : State n P) :
    s.pushLoop size =
      { s with
        tasks := s.tasks ++ List.range' s.pushed size
        pushed := s.pushed + size } := by
  induction size generalizing s with
  | zero => simp [pushLoop]
  | succ size ih =>
      simp only [pushLoop, ih, push, List.range'_succ, List.append_assoc,
        List.singleton_append, Nat.add_assoc, Nat.add_comm 1 size]

end State

/-- The moves of the parties. -/
inductive Event (n : Nat) (P : Type) where
  | addTask (p : P)
  | addTasks (p : P) (size : Nat)
  | notify (p : P)
  | doRun (w : Fin n)
  | finish (w : Fin n)
  /-- a spurious wake-up -/
  | spurious (w : Fin n)
  | close
  | join (w : Fin n)
  /-- `_works.clear()` -/
  | clear
  deriving DecidableEq

variable {n : Nat} {P : Type} [DecidableEq P]

/-- When a party may make its move, and what the move does. -/
inductive Step : State n P → Event n P → State n P → Prop
  | addTask {s} (p : P) : s.callers p = .idle → Step s (.addTask p) (s.addTask p)
  | addTasks {s} (p : P) (size : Nat) : s.callers p = .idle →
      Step s (.addTasks p size) (s.addTasks p size)
  | notifyOne {s} (p : P) (works : Fin n → Thread Work) : s.callers p = .notifyOne →
      NotifyOne s.works works → Step s (.notify p) (s.notifyOne p works)
  | notifyAll {s} (p : P) (size : Nat) : s.callers p = .notifyAll size →
      Step s (.notify p) (s.notifyAll p)
  | doRun {s} (w : Fin n) : s.works w = .ready → Step s (.doRun w) (s.doRun w)
  | finish {s} (w : Fin n) (task : Nat) : s.works w = .away (.running task) →
      Step s (.finish w) (s.finish w task)
  | spurious {s} (w : Fin n) : s.works w = .blocked → Step s (.spurious w) (s.move w .ready)
  | close {s} : s.closer = .notCalled → Step s .close s.close
  | join {s} (w : Fin n) : s.closer = .joining w → s.works w = .away .exited →
      Step s (.join w) { s with closer := .joining (w + 1) }
  | clear {s} : s.closer = .joining n → Step s .clear { s with closer := .closed }

/-- The pool of `n` workers under every interleaving of its threads. -/
def pool (n : Nat) (P : Type) [DecidableEq P] : TSys (State n P) (Event n P) where
  init s := s = .new
  step := Step

end LearnSpace.ThreadPool
