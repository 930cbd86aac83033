import Mathlib.Data.Fintype.Card
import LearnSpace.Keel.Heap

/-!
# Shared ownership

Finitely many holders own cells of a heap together, in the way of a shared
pointer: a cell lives as long as some holder points to it. `assign` redirects
one holder, and frees what it pointed to when nobody else does; `fresh`
allocates a cell for one holder. A cell that is held after either is what it
was before (`assign_cell_of_held`, `fresh_cell_of_held`): no step of one
holder changes or frees another one's cell.
-/

namespace Keel

open Function

/-- A heap, and the cell each holder points to (`null` for none). -/
structure Shared (ι α : Type*) where
  heap : Heap α
  holder : ι → Ptr

namespace Shared

variable {ι α : Type*} [Fintype ι] [DecidableEq ι]

/-- Nobody holds anything. -/
def empty : Shared ι α where
  heap := .empty
  holder _ := null

/-- The number of holders of a cell; nobody counts as holding `null`. -/
def useCount (S : Shared ι α) (p : Ptr) : Nat :=
  if p = null then 0 else (Finset.univ.filter (fun y => S.holder y = p)).card

/-- The one holder of its cell. -/
def unique (S : Shared ι α) (x : ι) : Bool := S.useCount (S.holder x) == 1

/-- Point `x` at `p`, and free the old cell if that was its last holder. -/
def assign (S : Shared ι α) (x : ι) (p : Ptr) : Shared ι α :=
  let S' : Shared ι α := { S with holder := update S.holder x p }
  if S'.useCount (S.holder x) = 0 then
    { S' with heap := (S.heap.free (S.holder x)).getD S.heap }
  else S'

/-- Allocate a cell for `x` and let go of its old one. -/
def fresh (S : Shared ι α) (x : ι) (a : α) : Shared ι α :=
  let new := S.heap.alloc a
  assign { S with heap := new.2 } x new.1

variable {S : Shared ι α} {x y : ι} {p q : Ptr} {a : α}

omit [DecidableEq ι] in
theorem useCount_eq_zero_iff :
    S.useCount p = 0 ↔ p = null ∨ ∀ y, S.holder y ≠ p := by
  unfold useCount
  by_cases hp : p = null
  · simp [hp]
  · simp [hp, Finset.filter_eq_empty_iff]

/-- A holder is unique when it holds a cell and nobody else holds that one. -/
theorem unique_iff :
    S.unique x = true ↔ S.holder x ≠ null ∧ ∀ y, y ≠ x → S.holder y ≠ S.holder x := by
  rw [unique, beq_iff_eq, useCount]
  by_cases hp : S.holder x = null
  · simp [hp]
  · rw [if_neg hp, Finset.card_eq_one]
    constructor
    · rintro ⟨z, hz⟩
      have hx : x = z := by
        have : x ∈ Finset.univ.filter (fun y => S.holder y = S.holder x) := by simp
        rw [hz] at this
        exact Finset.mem_singleton.mp this
      refine ⟨hp, fun y hy he => hy ?_⟩
      have : y ∈ Finset.univ.filter (fun y => S.holder y = S.holder x) := by simp [he]
      rw [hz, Finset.mem_singleton] at this
      rw [this, hx]
    · rintro ⟨-, hne⟩
      refine ⟨x, Finset.eq_singleton_iff_unique_mem.mpr ⟨by simp, ?_⟩⟩
      intro y hy
      by_contra hyx
      exact hne y hyx (by simpa using hy)

@[simp] theorem assign_holder : (S.assign x p).holder = update S.holder x p := by
  unfold assign
  dsimp only
  split <;> rfl

@[simp] theorem fresh_holder :
    (S.fresh x a).holder = update S.holder x (S.heap.alloc a).1 := by
  rw [fresh, assign_holder]

/-- A cell that someone holds afterwards is what it was. -/
theorem assign_cell_of_held (hy : (S.assign x p).holder y = q) (hq : q ≠ null) :
    (S.assign x p).heap.cell q = S.heap.cell q := by
  rw [assign_holder] at hy
  unfold assign
  dsimp only
  split
  · rename_i hzero
    have hne : q ≠ S.holder x := by
      rintro rfl
      rcases useCount_eq_zero_iff.mp hzero with hnull | hnone
      · exact hq hnull
      · exact hnone y hy
    cases hcell : S.heap.cell (S.holder x) with
    | none => simp [Heap.free, hcell]
    | some b =>
        obtain ⟨h', hfree, hcell'⟩ := Heap.free_eq hcell
        show ((S.heap.free (S.holder x)).getD S.heap).cell q = _
        rw [hfree, Option.getD_some, hcell', update_of_ne hne]
  · rfl

/-- The new cell holds what it was allocated with. -/
theorem fresh_cell : (S.fresh x a).heap.cell ((S.fresh x a).holder x) = some a := by
  have hne : (S.heap.alloc a).1 ≠ null := Heap.ne_null _ (by
    rw [Heap.alloc_cell, update_self])
  rw [fresh_holder, update_self, fresh, assign_cell_of_held (y := x) (by simp) hne]
  show (S.heap.alloc a).2.cell (S.heap.alloc a).1 = _
  rw [Heap.alloc_cell, update_self]

/-- Another holder's live cell is neither the new one nor changed. -/
theorem fresh_cell_of_held {b : α} (hyx : y ≠ x) (hy : S.heap.cell (S.holder y) = some b) :
    (S.fresh x a).heap.cell (S.holder y) = some b := by
  have hne : S.holder y ≠ (S.heap.alloc a).1 := by
    intro he
    rw [he, Heap.alloc_fresh] at hy
    cases hy
  rw [fresh, assign_cell_of_held (y := y) (by rw [assign_holder, update_of_ne hyx])
    (S.heap.ne_null hy)]
  show (S.heap.alloc a).2.cell _ = _
  rw [Heap.alloc_cell, update_of_ne hne, hy]

/-- A freshly allocated cell has one holder, if the others' cells are live. -/
theorem fresh_unshared {b : α} (hyx : y ≠ x) (hy : S.heap.cell (S.holder y) = some b) :
    (S.fresh x a).holder y ≠ (S.fresh x a).holder x := by
  rw [fresh_holder, update_self, update_of_ne hyx]
  intro he
  rw [he, Heap.alloc_fresh] at hy
  cases hy

/-- The old cell of a holder that had it alone is freed. -/
theorem fresh_cell_old {b : α} (hown : S.unique x = true)
    (hb : S.heap.cell (S.holder x) = some b) :
    (S.fresh x a).heap.cell (S.holder x) = none := by
  obtain ⟨-, hothers⟩ := unique_iff.mp hown
  have hne : S.holder x ≠ (S.heap.alloc a).1 := Nat.ne_of_lt (S.heap.lt_brk hb)
  have hlive : (S.heap.alloc a).2.cell (S.holder x) = some b := by
    rw [Heap.alloc_cell, update_of_ne hne, hb]
  obtain ⟨h', hfree, hcell⟩ := Heap.free_eq hlive
  let moved : Shared ι α :=
    { heap := (S.heap.alloc a).2
      holder := update S.holder x (S.heap.alloc a).1 }
  have hunused : moved.useCount (S.holder x) = 0 := by
    rw [useCount_eq_zero_iff]
    right
    intro y
    by_cases hy : y = x
    · show update S.holder x (S.heap.alloc a).1 y ≠ _
      rw [hy, update_self]
      exact hne.symm
    · show update S.holder x (S.heap.alloc a).1 y ≠ _
      rw [update_of_ne hy]
      exact hothers y hy
  rw [fresh, assign]
  dsimp only
  rw [if_pos hunused]
  show (((S.heap.alloc a).2.free (S.holder x)).getD _).cell _ = none
  rw [hfree, Option.getD_some, hcell, update_self]

end Shared
end Keel
