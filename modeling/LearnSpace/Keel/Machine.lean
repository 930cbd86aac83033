import LearnSpace.Keel.TSys

/-!
# Machines whose calls may abort

A `Machine` is an object with a start state and calls that answer an output
and a new state, or abort (`none`: the call has no defined behaviour). A run
is a list of calls. Since which calls a client may make can depend on the
state it has reached, a discipline is a predicate on a state and a call, and
`Obeys` says that every call of a run respects it at its moment.

`Refines` relates a machine under a discipline to a total abstract machine:
related states answer alike, stay related, and never abort. `Refines.run`
carries this from one call to runs of any length.
-/

namespace Keel

universe u v w x

/-- An object: its start state and its calls. `none` is undefined behaviour. -/
structure Machine (σ : Type u) (ι : Type v) (ο : Type w) where
  start : σ
  exec : σ → ι → Option (σ × ο)

/-- An abstract object, whose calls always answer. -/
structure Total (α : Type u) (ι : Type v) (ο : Type w) where
  start : α
  next : α → ι → α × ο

namespace Total

variable {α : Type u} {ι : Type v} {ο : Type w}

/-- The state and the outputs after a list of calls. -/
def run (A : Total α ι ο) : α → List ι → α × List ο
  | a, [] => (a, [])
  | a, i :: is =>
    let r := A.next a i
    let q := A.run r.1 is
    (q.1, r.2 :: q.2)

end Total

namespace Machine

variable {σ : Type u} {ι : Type v} {ο : Type w} {α : Type x}

/-- The state and the outputs after a list of calls; `none` when one aborts. -/
def run (M : Machine σ ι ο) : σ → List ι → Option (σ × List ο)
  | s, [] => some (s, [])
  | s, i :: is => do
    let (s, o) ← M.exec s i
    let (s, os) ← M.run s is
    return (s, o :: os)

theorem run_cons {M : Machine σ ι ο} {s s' : σ} {i : ι} {o : ο} (is : List ι)
    (h : M.exec s i = some (s', o)) :
    M.run s (i :: is) = (M.run s' is).map (fun r => (r.1, o :: r.2)) := by
  simp only [run, h, Option.bind_eq_bind, Option.bind_some]
  cases M.run s' is <;> rfl

/-- Every call of the run respects the discipline `ok` in the state it is
made in. -/
def Obeys (M : Machine σ ι ο) (ok : σ → ι → Prop) : σ → List ι → Prop
  | _, [] => True
  | s, i :: is => ok s i ∧ ∀ s' o, M.exec s i = some (s', o) → Obeys M ok s' is

/-- A run that starts with a legal call whose outcome is known. -/
theorem Obeys.cons {M : Machine σ ι ο} {ok : σ → ι → Prop} {s s' : σ} {i : ι} {o : ο}
    {is : List ι} (hok : ok s i) (hexec : M.exec s i = some (s', o))
    (h : M.Obeys ok s' is) : M.Obeys ok s (i :: is) := by
  refine ⟨hok, fun t p ht => ?_⟩
  rw [hexec] at ht
  cases ht
  exact h

/-- Whether a run respects a discipline can be computed along with the run. -/
instance decidableObeys (M : Machine σ ι ο) (ok : σ → ι → Prop)
    [∀ s i, Decidable (ok s i)] : ∀ (s : σ) (is : List ι), Decidable (M.Obeys ok s is)
  | _, [] => .isTrue trivial
  | s, i :: is =>
    match h : M.exec s i with
    | none => decidable_of_iff (ok s i) ⟨fun hok => ⟨hok, fun _ _ he => by simp [h] at he⟩, And.left⟩
    | some (s', o) =>
      haveI := decidableObeys M ok s' is
      decidable_of_iff (ok s i ∧ M.Obeys ok s' is)
        ⟨fun hok => .cons hok.1 h hok.2, fun hok => ⟨hok.1, hok.2 s' o h⟩⟩

/-- Calls that are legal in every state make a run that is. -/
theorem obeys_of_forall (M : Machine σ ι ο) {ok : σ → ι → Prop} {is : List ι}
    (h : ∀ i ∈ is, ∀ s, ok s i) : ∀ s, M.Obeys ok s is := by
  induction is with
  | nil =>
      intro s
      trivial
  | cons i is ih =>
      intro s
      exact ⟨h i List.mem_cons_self s,
        fun s' _ _ => ih (fun j hj => h j (List.mem_cons_of_mem _ hj)) s'⟩

/-- Without a discipline every run is allowed. -/
theorem obeys_true (M : Machine σ ι ο) (s : σ) (is : List ι) :
    M.Obeys (fun _ _ => True) s is :=
  M.obeys_of_forall (fun _ _ _ => trivial) s

/-- The states runs under a discipline go through, as a transition system. -/
def toTSys (M : Machine σ ι ο) (ok : σ → ι → Prop) : TSys σ ι where
  init s := s = M.start
  step s i s' := ok s i ∧ ∃ o, M.exec s i = some (s', o)

/-- One call under the discipline, from a state related to `a`: it answers
what the abstract machine answers and the states stay related. -/
structure Refines (M : Machine σ ι ο) (ok : σ → ι → Prop) (A : Total α ι ο)
    (R : σ → α → Prop) : Prop where
  start : R M.start A.start
  exec : ∀ s a i, R s a → ok s i →
    ∃ s', M.exec s i = some (s', (A.next a i).2) ∧ R s' (A.next a i).1

/-- A refinement carries over to runs: no call aborts, the outputs are the
abstract ones, and the last states are related. -/
theorem Refines.run_from {M : Machine σ ι ο} {ok : σ → ι → Prop} {A : Total α ι ο}
    {R : σ → α → Prop} (h : M.Refines ok A R) :
    ∀ (is : List ι) (s : σ) (a : α), R s a → M.Obeys ok s is →
      ∃ s', M.run s is = some (s', (A.run a is).2) ∧ R s' (A.run a is).1 := by
  intro is
  induction is with
  | nil => intro s a hR _; exact ⟨s, rfl, hR⟩
  | cons i is ih =>
      intro s a hR hobeys
      obtain ⟨s', hexec, hR'⟩ := h.exec s a i hR hobeys.1
      obtain ⟨s'', hrun, hR''⟩ := ih s' _ hR' (hobeys.2 _ _ hexec)
      refine ⟨s'', ?_, hR''⟩
      rw [run_cons is hexec, hrun]
      rfl

/-- `run_from` at the start states. -/
theorem Refines.run {M : Machine σ ι ο} {ok : σ → ι → Prop} {A : Total α ι ο}
    {R : σ → α → Prop} (h : M.Refines ok A R) (is : List ι)
    (hobeys : M.Obeys ok M.start is) :
    ∃ s', M.run M.start is = some (s', (A.run A.start is).2) ∧
      R s' (A.run A.start is).1 :=
  h.run_from is M.start A.start h.start hobeys

end Machine
end Keel
