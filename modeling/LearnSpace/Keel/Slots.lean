import Mathlib.Data.List.Perm.Subperm

/-!
# Slots that are taken and given back

A list says which slots are free, and the first free one is taken. Each owner has a slot of its
own that is not free (`Owned`), and there may be slots that are not free and have no owner any
more; `Covered` says that there are none. Taking a free slot and giving one back keep both, and
when all are covered and there are fewer owners than slots, one is free (`exists_free`).
-/

namespace Keel.Slots

variable {free : List Bool} {owners owners' : List Nat} {p q : Nat}

/-- The first free slot. -/
def firstFree (free : List Bool) : Option Nat := free.findIdx? id

/-- Each owner has a slot of its own, which is not free. -/
structure Owned (free : List Bool) (owners : List Nat) : Prop where
  nodup : owners.Nodup
  busy : ∀ p ∈ owners, free[p]? = some false

/-- The slots that are not free have owners. -/
def Covered (free : List Bool) (owners : List Nat) : Prop :=
  ∀ p, free[p]? = some false → p ∈ owners

theorem free_of_firstFree (h : firstFree free = some p) : free[p]? = some true := by
  obtain ⟨hlt, hfree, -⟩ := List.findIdx?_eq_some_iff_getElem.mp h
  rw [List.getElem?_eq_getElem hlt]
  exact congrArg some hfree

/-- When no slot is free, all are busy. -/
theorem busy_of_firstFree (h : firstFree free = none) (hp : p < free.length) :
    free[p]? = some false := by
  have hbusy := List.findIdx?_eq_none_iff.mp h free[p] (List.getElem_mem hp)
  rw [List.getElem?_eq_getElem hp]
  exact congrArg some hbusy

/-! ## Owners -/

theorem Owned.perm (h : Owned free owners) (hperm : owners.Perm owners') :
    Owned free owners' := by
  refine ⟨hperm.nodup_iff.mp h.nodup, ?_⟩
  intro p hp
  exact h.busy p (hperm.mem_iff.mpr hp)

/-- An owner may be forgotten. -/
theorem Owned.tail (h : Owned free (p :: owners)) : Owned free owners :=
  ⟨(List.nodup_cons.mp h.nodup).2, fun q hq => h.busy q (List.mem_cons_of_mem p hq)⟩

theorem Owned.not_mem (h : Owned free owners) (hp : free[p]? = some true) : p ∉ owners := by
  intro hmem
  have hbusy := h.busy p hmem
  rw [hp] at hbusy
  cases hbusy

/-- A free slot is taken. -/
theorem Owned.take (h : Owned free owners) (hp : free[p]? = some true) :
    Owned (free.set p false) (p :: owners) := by
  have hout := h.not_mem hp
  refine ⟨List.nodup_cons.mpr ⟨hout, h.nodup⟩, ?_⟩
  intro q hq
  cases List.mem_cons.mp hq with
  | inl heq =>
      rw [heq, List.getElem?_set_self (List.getElem?_eq_some_iff.mp hp).1]
  | inr hmem =>
      have hne : p ≠ q := by
        intro heq
        exact hout (heq ▸ hmem)
      rw [List.getElem?_set_ne hne]
      exact h.busy q hmem

/-- A slot is given back. -/
theorem Owned.put (h : Owned free (p :: owners)) : Owned (free.set p true) owners := by
  obtain ⟨hout, hnodup⟩ := List.nodup_cons.mp h.nodup
  refine ⟨hnodup, ?_⟩
  intro q hq
  have hne : p ≠ q := by
    intro heq
    exact hout (heq ▸ hq)
  rw [List.getElem?_set_ne hne]
  exact h.busy q (List.mem_cons_of_mem p hq)

/-! ## Slots without an owner -/

theorem Covered.perm (h : Covered free owners) (hperm : owners.Perm owners') :
    Covered free owners' := by
  intro p hp
  exact hperm.mem_iff.mp (h p hp)

theorem Covered.take (h : Covered free owners) : Covered (free.set p false) (p :: owners) := by
  intro q hq
  by_cases heq : p = q
  · rw [heq]
    exact List.mem_cons_self
  · rw [List.getElem?_set_ne heq] at hq
    exact List.mem_cons_of_mem p (h q hq)

theorem Covered.put (h : Covered free (p :: owners)) : Covered (free.set p true) owners := by
  intro q hq
  by_cases heq : p = q
  · rw [heq, List.getElem?_set] at hq
    simp at hq
  · rw [List.getElem?_set_ne heq] at hq
    cases List.mem_cons.mp (h q hq) with
    | inl hqp => exact absurd hqp.symm heq
    | inr hmem => exact hmem

/-- **Fewer owners than slots leave one free.** -/
theorem exists_free (h : Covered free owners) (hlt : owners.length < free.length) :
    ∃ p, firstFree free = some p := by
  cases hfirst : firstFree free with
  | some p => exact ⟨p, rfl⟩
  | none =>
      -- every slot would have an owner
      have hsub : List.range free.length ⊆ owners := by
        intro p hp
        exact h p (busy_of_firstFree hfirst (List.mem_range.mp hp))
      have hle := (List.subperm_of_subset List.nodup_range hsub).length_le
      rw [List.length_range] at hle
      omega

end Keel.Slots
