import Mathlib.Data.Fintype.Basic
import Mathlib.Data.Finset.Card
import Mathlib.Logic.Function.Basic

/-!
# How many hold a thing

Each of finitely many parties holds at most one thing. `holders f k` is the number of those
that hold `k`. When one party takes another thing, or lets go of what it has, the numbers
change by that party alone (`holders_update`).
-/

namespace Keel

open Function

variable {ι κ : Type*} [Fintype ι] [DecidableEq κ] {f : ι → Option κ} {x y : ι} {k : κ}

/-- The number of parties that hold `k`. -/
def holders (f : ι → Option κ) (k : κ) : Nat := (Finset.univ.filter fun x => f x = some k).card

theorem holders_pos : 0 < holders f k ↔ ∃ x, f x = some k := by
  rw [holders, Finset.card_pos]
  constructor
  · rintro ⟨x, hx⟩
    exact ⟨x, (Finset.mem_filter.mp hx).2⟩
  · rintro ⟨x, hx⟩
    exact ⟨x, Finset.mem_filter.mpr ⟨Finset.mem_univ x, hx⟩⟩

/-- Nobody holds `k`. -/
theorem holders_eq_zero (h : ∀ x, f x ≠ some k) : holders f k = 0 := by
  by_contra hne
  obtain ⟨x, hx⟩ := holders_pos.mp (Nat.pos_of_ne_zero hne)
  exact h x hx

/-- The only one to hold `k`. -/
theorem holders_le_one (h : holders f k ≤ 1) (hx : f x = some k) (hy : f y = some k) : x = y :=
  Finset.card_le_one_iff.mp h (Finset.mem_filter.mpr ⟨Finset.mem_univ x, hx⟩)
    (Finset.mem_filter.mpr ⟨Finset.mem_univ y, hy⟩)

/-- Another one beside `x` holds `k`. -/
theorem exists_other (h : 1 < holders f k) (x : ι) : ∃ y, y ≠ x ∧ f y = some k := by
  obtain ⟨a, b, ha, hb, hab⟩ := Finset.one_lt_card_iff.mp h
  by_cases hax : a = x
  · refine ⟨b, ?_, (Finset.mem_filter.mp hb).2⟩
    rintro rfl
    exact hab hax
  · exact ⟨a, hax, (Finset.mem_filter.mp ha).2⟩

variable [DecidableEq ι]

/-- The others, and `x`. -/
theorem holders_split (f : ι → Option κ) (k : κ) (x : ι) :
    holders f k = ((Finset.univ.erase x).filter fun y => f y = some k).card +
      if f x = some k then 1 else 0 := by
  have hout : x ∉ (Finset.univ.erase x).filter fun y => f y = some k := by
    intro hmem
    exact Finset.notMem_erase x _ (Finset.mem_filter.mp hmem).1
  rw [holders, ← Finset.insert_erase (Finset.mem_univ x), Finset.filter_insert,
    Finset.erase_insert (Finset.notMem_erase x _)]
  by_cases hx : f x = some k
  · rw [if_pos hx, if_pos hx, Finset.card_insert_of_notMem hout]
  · rw [if_neg hx, if_neg hx, Nat.add_zero]

/-- One party changes what it holds. -/
theorem holders_update (f : ι → Option κ) (x : ι) (v : Option κ) (k : κ) :
    holders (update f x v) k + (if f x = some k then 1 else 0) =
      holders f k + if v = some k then 1 else 0 := by
  have hothers : ((Finset.univ.erase x).filter fun y => update f x v y = some k) =
      (Finset.univ.erase x).filter fun y => f y = some k := by
    apply Finset.filter_congr
    intro y hy
    rw [update_of_ne (Finset.ne_of_mem_erase hy)]
  rw [holders_split f k x, holders_split (update f x v) k x, hothers, update_self]
  omega

end Keel
