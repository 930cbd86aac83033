import Mathlib.Tactic.Common

/-!
# Loops with fuel

A loop of which it is not known beforehand that it ends takes fuel, one unit for each
iteration. One iteration is undefined, goes on, or leaves the loop with a result; `none`
is an undefined iteration or one too many for the fuel.

`Goes body n s t` says that the loop gets from `s` to `t` in `n` iterations, and
`Undefined body s` that it has no result from `s` for any fuel. Both are composed along
the iterations, so a run is described by what it does piece by piece.
-/

namespace Keel.Fuel

universe u v

variable {σ : Type u} {ρ : Type v} {body : σ → Option (σ ⊕ ρ)} {s t r : σ} {n m : Nat}

/-- At most as many iterations as there is fuel. -/
def loop (body : σ → Option (σ ⊕ ρ)) : Nat → σ → Option ρ
  | 0, _ => none
  | fuel + 1, s => (body s).bind (Sum.elim (loop body fuel) some)

theorem loop_next (h : body s = some (.inl t)) (fuel : Nat) :
    loop body (fuel + 1) s = loop body fuel t := by
  rw [loop, h]
  rfl

theorem loop_leave {a : ρ} (h : body s = some (.inr a)) (fuel : Nat) :
    loop body (fuel + 1) s = some a := by
  rw [loop, h]
  rfl

/-- What the first iteration of a loop with a result has done. -/
theorem loop_cases {fuel : Nat} {a : ρ} (h : loop body (fuel + 1) s = some a) :
    (∃ t, body s = some (.inl t) ∧ loop body fuel t = some a) ∨ body s = some (.inr a) := by
  cases hbody : body s with
  | none =>
      rw [loop, hbody] at h
      cases h
  | some next =>
      cases next with
      | inl t =>
          rw [loop_next hbody] at h
          exact .inl ⟨t, rfl, h⟩
      | inr b =>
          rw [loop_leave hbody] at h
          cases h
          exact .inr rfl

/-- More fuel does no harm. -/
theorem loop_mono {fuel : Nat} {a : ρ} (h : loop body fuel s = some a) (k : Nat) :
    loop body (fuel + k) s = some a := by
  induction fuel generalizing s with
  | zero => cases h
  | succ fuel ih =>
      rw [Nat.add_right_comm]
      rcases loop_cases h with ⟨t, hbody, hloop⟩ | hbody
      · rw [loop_next hbody]
        exact ih hloop
      · exact loop_leave hbody _

/-- States of which the next iteration makes the same lead to the same result. -/
theorem loop_of_same (hsame : body s = body t) {fuel : Nat} {a : ρ}
    (h : loop body fuel t = some a) : loop body fuel s = some a := by
  cases fuel with
  | zero => cases h
  | succ fuel =>
      rw [loop, hsame]
      exact h

/-- What holds of a state and is kept by the iterations holds of the result. -/
theorem loop_invariant {P : σ → Prop} {Q : ρ → Prop}
    (hnext : ∀ s t, P s → body s = some (.inl t) → P t)
    (hleave : ∀ s a, P s → body s = some (.inr a) → Q a) {fuel : Nat} {a : ρ} (hs : P s)
    (h : loop body fuel s = some a) : Q a := by
  induction fuel generalizing s with
  | zero => cases h
  | succ fuel ih =>
      rcases loop_cases h with ⟨t, hbody, hloop⟩ | hbody
      · exact ih (hnext s t hs hbody) hloop
      · exact hleave s a hs hbody

/-- The loop gets from `s` to `t` in `n` iterations. -/
def Goes (body : σ → Option (σ ⊕ ρ)) (n : Nat) (s t : σ) : Prop :=
  ∀ fuel, loop body (n + fuel) s = loop body fuel t

/-- There is no result from `s`. -/
def Undefined (body : σ → Option (σ ⊕ ρ)) (s : σ) : Prop := ∀ fuel, loop body fuel s = none

theorem Goes.refl (s : σ) : Goes body 0 s s := by
  intro fuel
  rw [Nat.zero_add]

theorem Goes.next (h : body s = some (.inl t)) : Goes body 1 s t := by
  intro fuel
  rw [Nat.add_comm]
  exact loop_next h fuel

theorem Goes.trans (h : Goes body n s t) (h' : Goes body m t r) : Goes body (n + m) s r := by
  intro fuel
  rw [Nat.add_assoc, h, h']

theorem Goes.of_same (hsame : body s = body t) (h : Goes body (n + 1) t r) :
    Goes body (n + 1) s r := by
  intro fuel
  rw [← h fuel, Nat.add_right_comm, loop, loop, hsame]

/-- An iteration that is undefined. -/
theorem Undefined.fault (h : body s = none) : Undefined body s := by
  intro fuel
  cases fuel with
  | zero => rfl
  | succ fuel => rw [loop, h, Option.bind_none]

/-- A loop that gets to where there is no result has none. -/
theorem Undefined.of_goes (h : Goes body n s t) (hnone : Undefined body t) :
    Undefined body s := by
  intro fuel
  cases hloop : loop body fuel s with
  | none => rfl
  | some a =>
      have hmono := loop_mono hloop n
      rw [Nat.add_comm, h, hnone] at hmono
      cases hmono

end Keel.Fuel
