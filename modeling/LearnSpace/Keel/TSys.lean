import Mathlib.Logic.Relation

/-!
# Labelled transition systems

Initial states, a labelled step relation, the states reachable from the
initial ones, and the one induction every safety proof rests on: what holds
initially and is kept by each step holds in every reachable state
(`Inductive.invariant`). Nondeterminism is in the relation, so an
interleaving of several parties is a system whose labels name the party and
its move.
-/

namespace Keel

universe u v w

/-- A labelled transition system over states `σ` and labels `ε`. -/
structure TSys (σ : Type u) (ε : Type v) where
  init : σ → Prop
  step : σ → ε → σ → Prop

namespace TSys

variable {σ : Type u} {ε : Type v} {T : TSys σ ε}

/-- The states some finite run from an initial state ends in. -/
inductive Reachable (T : TSys σ ε) : σ → Prop
  | init {s} : T.init s → Reachable T s
  | step {s e s'} : Reachable T s → T.step s e s' → Reachable T s'

/-- A property of every reachable state. -/
def Invariant (T : TSys σ ε) (P : σ → Prop) : Prop :=
  ∀ s, T.Reachable s → P s

/-- An inductive invariant: it holds initially and no step breaks it. -/
structure Inductive (T : TSys σ ε) (I : σ → Prop) : Prop where
  init : ∀ s, T.init s → I s
  step : ∀ s e s', I s → T.step s e s' → I s'

/-- An inductive invariant holds in every reachable state. -/
theorem Inductive.invariant {I : σ → Prop} (h : T.Inductive I) : T.Invariant I := by
  intro s hs
  induction hs with
  | init hi => exact h.init _ hi
  | step _ hstep ih => exact h.step _ _ _ ih hstep

/-- A run that a function computes, each step of it one of the system. -/
theorem Reachable.foldlM {f : σ → ε → Option σ} (hf : ∀ s e s', f s e = some s' → T.step s e s')
    {s s' : σ} {es : List ε} (hs : T.Reachable s) (hrun : es.foldlM f s = some s') :
    T.Reachable s' := by
  induction es generalizing s with
  | nil =>
      cases hrun
      exact hs
  | cons e es ih =>
      rw [List.foldlM_cons] at hrun
      obtain ⟨t, ht, hrest⟩ := Option.bind_eq_some_iff.mp hrun
      exact ih (hs.step (hf s e t ht)) hrest

end TSys
end Keel
