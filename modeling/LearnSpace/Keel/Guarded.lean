import Mathlib.Logic.Function.Basic

/-!
# A section behind a flag

Many parties, one section, one flag. `Guarded flag inside` says that the flag is up exactly
while somebody is inside and that at most one is. Who finds the flag down may put it up and
go in (`enter`), who is inside may come out and take it down (`leave`), and moves that lead
neither in nor out change nothing (`stay`).
-/

namespace Keel

open Function

universe u v

/-- The flag is up exactly while somebody is inside, and at most one party is. -/
structure Guarded {ι : Type u} (flag : Bool) (inside : ι → Prop) : Prop where
  up_iff : flag = true ↔ ∃ t, inside t
  alone : ∀ t u, inside t → inside u → t = u

namespace Guarded

variable {ι : Type u} {α : Type v} [DecidableEq ι] {flag : Bool} {pc : ι → α} {p : α → Prop}
  {t : ι} {a : α}

omit [DecidableEq ι] in
/-- The flag is up while a party is inside. -/
theorem up (h : Guarded flag fun u => p (pc u)) (ht : p (pc t)) : flag = true :=
  h.up_iff.mpr ⟨t, ht⟩

omit [DecidableEq ι] in
/-- Nobody is inside before anything happens. -/
theorem empty (h : ∀ t, ¬ p (pc t)) : Guarded false fun u => p (pc u) := by
  constructor
  · constructor
    · intro hup
      cases hup
    · intro ⟨t, ht⟩
      exact absurd ht (h t)
  · intro t _ ht _
    exact absurd ht (h t)

/-- A move between two places on the same side. -/
theorem stay (h : Guarded flag fun u => p (pc u)) (ha : p a ↔ p (pc t)) :
    Guarded flag fun u => p (update pc t a u) := by
  have hsame : ∀ u, p (update pc t a u) ↔ p (pc u) := by
    intro u
    by_cases hu : u = t
    · subst hu
      rw [update_self, ha]
    · rw [update_of_ne hu]
  simp only [hsame]
  exact h

/-- A party finds the flag down and goes in. -/
theorem enter (h : Guarded false fun u => p (pc u)) (ha : p a) :
    Guarded true fun u => p (update pc t a u) := by
  have hout : ∀ u, ¬ p (pc u) := by
    intro u hu
    cases h.up hu
  have honly : ∀ u, p (update pc t a u) → u = t := by
    intro u hu
    by_contra hne
    rw [update_of_ne hne] at hu
    exact hout u hu
  constructor
  · have ht : p (update pc t a t) := by rwa [update_self]
    exact ⟨fun _ => ⟨t, ht⟩, fun _ => rfl⟩
  · intro u w hu hw
    rw [honly u hu, honly w hw]

/-- The party inside comes out. -/
theorem leave (h : Guarded flag fun u => p (pc u)) (ht : p (pc t)) (ha : ¬ p a) :
    Guarded false fun u => p (update pc t a u) := by
  apply empty
  intro u hu
  by_cases hut : u = t
  · subst hut
    rw [update_self] at hu
    exact ha hu
  · rw [update_of_ne hut] at hu
    exact hut (h.alone u t hu ht)

end Guarded
end Keel
