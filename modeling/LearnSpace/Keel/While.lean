import Mathlib.Tactic.Common

/-!
# Loops that end

A `While` is the body of a loop together with a measure that every further
iteration decreases. One iteration faults, leaves the loop with a result, or
goes on with a new state; so `run` is a total function, and it computes.

What a run does is decided by the states it visits: `run_eq` unfolds one
iteration, `Visits.invariant` carries a property along, and `run_stop` finds
the visited state in which the run stopped.
-/

namespace Keel

universe u v w

/-- A loop body over states `σ`: it faults with an `ε`, goes on (`inl`), or
leaves the loop with a result (`inr`). -/
structure While (σ : Type u) (ε : Type v) (α : Type w) where
  body : σ → Except ε (σ ⊕ α)
  measure : σ → Nat
  decreases : ∀ s s', body s = .ok (.inl s') → measure s' < measure s

namespace While

variable {σ : Type u} {ε : Type v} {α : Type w} {W : While σ ε α} {s t : σ}

/-- At most `n` iterations, which the measure shows to be enough. -/
def runUpTo (W : While σ ε α) : (n : Nat) → (s : σ) → W.measure s < n → Except ε α
  | n + 1, s, hn =>
    match hbody : W.body s with
    | .error e => .error e
    | .ok (.inr a) => .ok a
    | .ok (.inl s') =>
      W.runUpTo n s' (Nat.lt_of_lt_of_le (W.decreases s s' hbody) (Nat.le_of_lt_succ hn))

/-- The loop from the state `s`. -/
def run (W : While σ ε α) (s : σ) : Except ε α :=
  W.runUpTo (W.measure s + 1) s (Nat.lt_succ_self _)

/-- More iterations than the measure asks for change nothing. -/
theorem runUpTo_eq (n m : Nat) (s : σ) (hn : W.measure s < n) (hm : W.measure s < m) :
    W.runUpTo n s hn = W.runUpTo m s hm := by
  induction n generalizing m s with
  | zero => exact absurd hn (Nat.not_lt_zero _)
  | succ n ih =>
      cases m with
      | zero => exact absurd hm (Nat.not_lt_zero _)
      | succ m =>
          unfold runUpTo
          split
          · rfl
          · rfl
          · exact ih ..

/-- One iteration, and the rest of the loop. -/
theorem run_eq (W : While σ ε α) (s : σ) :
    W.run s = match W.body s with
      | .error e => .error e
      | .ok (.inr a) => .ok a
      | .ok (.inl s') => W.run s' := by
  rw [run]
  unfold runUpTo
  split
  · rename_i hbody
    rw [hbody]
  · rename_i hbody
    rw [hbody]
  · rename_i s' hbody
    simp only [hbody]
    exact runUpTo_eq ..

theorem run_fault {e : ε} (h : W.body s = .error e) : W.run s = .error e := by
  rw [run_eq, h]

theorem run_leave {a : α} (h : W.body s = .ok (.inr a)) : W.run s = .ok a := by
  rw [run_eq, h]

theorem run_next (h : W.body s = .ok (.inl t)) : W.run s = W.run t := by
  rw [run_eq, h]

/-- A loop that comes to a result leaves with it, or goes on to it. -/
theorem run_ok {a : α} (h : W.run s = .ok a) :
    W.body s = .ok (.inr a) ∨ ∃ t, W.body s = .ok (.inl t) ∧ W.run t = .ok a := by
  cases hbody : W.body s with
  | error e =>
      rw [run_fault hbody] at h
      cases h
  | ok r =>
      cases r with
      | inl t => exact .inr ⟨t, rfl, (run_next hbody).symm.trans h⟩
      | inr b =>
          rw [run_leave hbody] at h
          cases h
          exact .inl rfl

/-- The states in which the loop from `s` starts an iteration. -/
inductive Visits (W : While σ ε α) (s : σ) : σ → Prop
  | start : Visits W s s
  | next {t t'} : Visits W s t → W.body t = .ok (.inl t') → Visits W s t'

/-- What every iteration keeps holds in every visited state. -/
theorem Visits.invariant {I : σ → Prop} (h : W.Visits s t) (hs : I s)
    (hstep : ∀ t t', I t → W.body t = .ok (.inl t') → I t') : I t := by
  induction h with
  | start => exact hs
  | next _ hbody ih => exact hstep _ _ ih hbody

/-- The loop does from a visited state what it does from the start. -/
theorem Visits.run_eq (h : W.Visits s t) : W.run t = W.run s := by
  induction h with
  | start => rfl
  | next _ hbody ih => rw [← run_next hbody, ih]

theorem Visits.trans {r : σ} (h : W.Visits s t) (h' : W.Visits t r) : W.Visits s r := by
  induction h' with
  | start => exact h
  | next _ hbody ih => exact ih.next hbody

/-- Every loop comes to a last iteration, whose outcome is that of the loop. -/
theorem run_stop (W : While σ ε α) (s : σ) :
    ∃ t, W.Visits s t ∧
      ((∃ e, W.body t = .error e ∧ W.run s = .error e) ∨
        ∃ a, W.body t = .ok (.inr a) ∧ W.run s = .ok a) := by
  induction hm : W.measure s using Nat.strongRecOn generalizing s with
  | ind m ih =>
      cases hbody : W.body s with
      | error e => exact ⟨s, .start, .inl ⟨e, hbody, run_fault hbody⟩⟩
      | ok r =>
          cases r with
          | inr a => exact ⟨s, .start, .inr ⟨a, hbody, run_leave hbody⟩⟩
          | inl s' =>
              obtain ⟨t, hvisit, hstop⟩ := ih _ (hm ▸ W.decreases s s' hbody) s' rfl
              refine ⟨t, (Visits.start.next hbody).trans hvisit, ?_⟩
              rw [run_next hbody]
              exact hstop

/-- A result comes from a visited state that left the loop with it. -/
theorem exists_leave {a : α} (h : W.run s = .ok a) :
    ∃ t, W.Visits s t ∧ W.body t = .ok (.inr a) := by
  obtain ⟨t, hvisit, ⟨e, _, hrun⟩ | ⟨b, hbody, hrun⟩⟩ := W.run_stop s
  · rw [h] at hrun; cases hrun
  · rw [h] at hrun; cases hrun; exact ⟨t, hvisit, hbody⟩

/-- A fault comes from a visited state. -/
theorem exists_fault {e : ε} (h : W.run s = .error e) :
    ∃ t, W.Visits s t ∧ W.body t = .error e := by
  obtain ⟨t, hvisit, ⟨e', hbody, hrun⟩ | ⟨a, _, hrun⟩⟩ := W.run_stop s
  · rw [h] at hrun; cases hrun; exact ⟨t, hvisit, hbody⟩
  · rw [h] at hrun; cases hrun

end While
end Keel
