import Mathlib.Data.List.Nodup
import Mathlib.Logic.Function.Basic

/-!
# An index over cells

A container that keeps its elements in cells and finds them by key has two
pieces of state: the cells in some order, and a map from keys to cells.
`Indexes find as entry` says that the map has exactly the keys of the cells
`as` and leads to exactly the cell that holds the key. A pair filed in both
and a pair taken out of both keep it, and so does any reordering of the cells.
-/

namespace Keel

open Function

variable {K V ι : Type*}

/-- `find` leads to a cell exactly when it is one of `as` and holds the key. -/
def Indexes (find : K → Option ι) (as : List ι) (entry : ι → Option (K × V)) : Prop :=
  ∀ k p, find k = some p ↔ p ∈ as ∧ ∃ v, entry p = some (k, v)

/-- Setting `f` at a cell outside a list does not show on the list. -/
theorem map_update_of_notMem {β : Type*} [DecidableEq ι] {f : ι → β} {p : ι} {b : β}
    {as : List ι} (hp : p ∉ as) : as.map (update f p b) = as.map f := by
  refine List.map_congr_left ?_
  intro q hq
  exact update_of_ne (fun he : q = p => hp (he ▸ hq)) _ _

/-- Setting `f` at the cell at a position of a list shows at that position. -/
theorem map_update_of_getElem {β : Type*} [DecidableEq ι] {f : ι → β} {p : ι} {b : β} :
    ∀ {as : List ι} {i : Nat}, as.Nodup → as[i]? = some p →
      as.map (update f p b) = (as.map f).set i b
  | a :: as, 0, hnd, hp => by
      cases hp
      rw [List.map_cons, update_self, map_update_of_notMem (List.nodup_cons.mp hnd).1]
      rfl
  | a :: as, i + 1, hnd, hp => by
      obtain ⟨ha, hnd'⟩ := List.nodup_cons.mp hnd
      have hne : a ≠ p := fun he => ha (he ▸ List.mem_of_getElem? hp)
      rw [List.map_cons, update_of_ne hne, map_update_of_getElem hnd' hp]
      rfl

namespace Indexes

variable {find : K → Option ι} {as xs ys : List ι} {entry : ι → Option (K × V)}
  {k : K} {v : V} {p q : ι}

theorem perm (h : Indexes find as entry) {bs : List ι} (hperm : bs.Perm as) :
    Indexes find bs entry := by
  intro k p
  rw [hperm.mem_iff]
  exact h k p

/-- A key is filed under the cell that holds it. -/
theorem find_eq (h : Indexes find as entry) (hp : p ∈ as) (hv : entry p = some (k, v)) :
    find k = some p :=
  (h k p).mpr ⟨hp, v, hv⟩

/-- Two cells of one key are one cell. -/
theorem cell_unique {w : V} (h : Indexes find as entry) (hp : p ∈ as) (hq : q ∈ as)
    (hpk : entry p = some (k, v)) (hqk : entry q = some (k, w)) : p = q :=
  Option.some.inj ((h.find_eq hp hpk).symm.trans (h.find_eq hq hqk))

variable [DecidableEq K] [DecidableEq ι]

/-- A new key filed under a new cell. -/
theorem insert (h : Indexes find as entry) (hk : find k = none) (hp : p ∉ as) (v : V) :
    Indexes (update find k (some p)) (p :: as) (update entry p (some (k, v))) := by
  intro k' q
  by_cases hq : q = p
  · -- the new cell holds the new key, and no other
    subst hq
    rw [update_self]
    by_cases hk' : k' = k
    · subst hk'
      simp
    · rw [update_of_ne hk', h k' q]
      constructor
      · rintro ⟨hmem, -⟩
        exact absurd hmem hp
      · rintro ⟨-, w, hw⟩
        cases hw
        exact absurd rfl hk'
  · rw [update_of_ne hq, List.mem_cons, or_iff_right hq, ← h k' q]
    by_cases hk' : k' = k
    · subst hk'
      rw [update_self, hk]
      constructor
      · rintro he
        cases he
        exact absurd rfl hq
      · rintro he
        cases he
    · rw [update_of_ne hk']

/-- A key and its cell taken out. -/
theorem erase (h : Indexes find (xs ++ p :: ys) entry) (hv : entry p = some (k, v))
    (hp : p ∉ xs ++ ys) :
    Indexes (update find k none) (xs ++ ys) (update entry p none) := by
  have hfile : find k = some p := h.find_eq (by simp) hv
  intro k' q
  by_cases hq : q = p
  · subst hq
    rw [update_self]
    constructor
    · intro he
      by_cases hk' : k' = k
      · rw [hk', update_self] at he
        cases he
      · rw [update_of_ne hk'] at he
        obtain ⟨-, w, hw⟩ := (h k' q).mp he
        rw [hv] at hw
        cases hw
        exact absurd rfl hk'
    · rintro ⟨hmem, -⟩
      exact absurd hmem hp
  · -- any other cell is filed as before
    have hmem : q ∈ xs ++ ys ↔ q ∈ xs ++ p :: ys := by simp [hq]
    rw [update_of_ne hq, hmem, ← h k' q]
    by_cases hk' : k' = k
    · subst hk'
      rw [update_self, hfile]
      constructor
      · intro he
        cases he
      · intro he
        cases he
        exact absurd rfl hq
    · rw [update_of_ne hk']

end Indexes
end Keel
