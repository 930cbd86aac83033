import Mathlib.Data.Finset.Card
import Mathlib.Data.Finset.Range
import Mathlib.Logic.Function.Basic

/-!
# A heap of cells

Addresses are natural numbers, `null` is 0, and a cell is live between its
allocation and its release. Loading from, storing to or freeing an address
that is not live has no defined behaviour, and answers `none`. An address is
handed out once, so a pointer that outlives its cell stays dead for good and
every later use of it shows up as `none`.

The heap carries its own well-formedness: `null` is dead, and so is every
address the allocator has not reached. So the live cells are finitely many
(`live`), and a loop that frees one each time round has a measure.

A record in a cell is seen through its fields (`field`): a write to one field
is a `Function.update` of it and leaves the others alone. What an operation
does to the cells of an object is an `Exchange`: the object's cells become
others, and no other cell is touched.
-/

namespace Keel

/-- An address. -/
abbrev Ptr := Nat

/-- The null pointer. -/
def null : Ptr := 0

/-- Live cells of type `α`, and the next address to hand out. -/
structure Heap (α : Type*) where
  cell : Ptr → Option α
  brk : Ptr
  null_lt_brk : null < brk
  cell_null : cell null = none
  cell_above : ∀ p, brk ≤ p → cell p = none

namespace Heap

variable {α : Type*}

/-- No cell is live. -/
def empty : Heap α where
  cell _ := none
  brk := 1
  null_lt_brk := Nat.zero_lt_one
  cell_null := rfl
  cell_above _ _ := rfl

/-- Read through a pointer. -/
def load (h : Heap α) (p : Ptr) : Option α := h.cell p

theorem lt_brk (h : Heap α) {p : Ptr} {x : α} (hp : h.cell p = some x) : p < h.brk := by
  by_contra hle
  rw [h.cell_above p (Nat.le_of_not_lt hle)] at hp
  cases hp

theorem ne_null (h : Heap α) {p : Ptr} {x : α} (hp : h.cell p = some x) : p ≠ null := by
  rintro rfl
  rw [h.cell_null] at hp
  cases hp

/-- The heap with `x` in the live cell `p`. -/
def overwrite (h : Heap α) (p : Ptr) (x : α) (hp : (h.cell p).isSome) : Heap α where
  cell := Function.update h.cell p (some x)
  brk := h.brk
  null_lt_brk := h.null_lt_brk
  cell_null := by
    obtain ⟨y, hy⟩ := Option.isSome_iff_exists.mp hp
    rw [Function.update_of_ne (h.ne_null hy).symm, h.cell_null]
  cell_above := by
    intro q hq
    obtain ⟨y, hy⟩ := Option.isSome_iff_exists.mp hp
    have hne : q ≠ p := Nat.ne_of_gt (Nat.lt_of_lt_of_le (h.lt_brk hy) hq)
    rw [Function.update_of_ne hne, h.cell_above q hq]

/-- Write through a pointer. -/
def store (h : Heap α) (p : Ptr) (x : α) : Option (Heap α) :=
  if hp : (h.cell p).isSome then some (h.overwrite p x hp) else none

/-- Read, change and write back. -/
def modify (h : Heap α) (p : Ptr) (f : α → α) : Option (Heap α) := do
  let x ← h.load p
  h.store p (f x)

/-- Allocate a cell holding `x`; the answer is its address. -/
def alloc (h : Heap α) (x : α) : Ptr × Heap α :=
  (h.brk,
   { cell := Function.update h.cell h.brk (some x)
     brk := h.brk + 1
     null_lt_brk := Nat.lt_succ_of_lt h.null_lt_brk
     cell_null := by rw [Function.update_of_ne (Nat.ne_of_lt h.null_lt_brk), h.cell_null]
     cell_above := by
      intro q hq
      rw [Function.update_of_ne (Nat.ne_of_gt hq), h.cell_above q (Nat.le_of_lt hq)] })

/-- Release a cell. Freeing a dead address has no defined behaviour. -/
def free (h : Heap α) (p : Ptr) : Option (Heap α) :=
  if (h.cell p).isSome then
    some
      { cell := Function.update h.cell p none
        brk := h.brk
        null_lt_brk := h.null_lt_brk
        cell_null := by
          by_cases hp : null = p
          · rw [hp, Function.update_self]
          · rw [Function.update_of_ne hp, h.cell_null]
        cell_above := by
          intro q hq
          by_cases hp : q = p
          · rw [hp, Function.update_self]
          · rw [Function.update_of_ne hp, h.cell_above q hq] }
  else none

@[simp] theorem load_null (h : Heap α) : h.load null = none := h.cell_null

/-- A pointer to a live cell can be stored through. -/
theorem store_eq {h : Heap α} {p : Ptr} {y : α} (hp : h.cell p = some y) (x : α) :
    ∃ h', h.store p x = some h' ∧ h'.cell = Function.update h.cell p (some x) ∧
      h'.brk = h.brk := by
  have hlive : (h.cell p).isSome := by rw [hp]; rfl
  exact ⟨h.overwrite p x hlive, by rw [store, dif_pos hlive], rfl, rfl⟩

theorem modify_eq {h : Heap α} {p : Ptr} {y : α} (hp : h.cell p = some y) (f : α → α) :
    ∃ h', h.modify p f = some h' ∧ h'.cell = Function.update h.cell p (some (f y)) ∧
      h'.brk = h.brk := by
  obtain ⟨h', hstore, hcell, hbrk⟩ := store_eq hp (f y)
  exact ⟨h', by simp [modify, load, hp, hstore], hcell, hbrk⟩

theorem alloc_cell (h : Heap α) (x : α) :
    (h.alloc x).2.cell = Function.update h.cell (h.alloc x).1 (some x) := rfl

/-- A new cell is none of the live ones. -/
theorem alloc_fresh (h : Heap α) (x : α) : h.cell (h.alloc x).1 = none :=
  h.cell_above _ (Nat.le_refl _)

theorem free_eq {h : Heap α} {p : Ptr} {y : α} (hp : h.cell p = some y) :
    ∃ h', h.free p = some h' ∧ h'.cell = Function.update h.cell p none := by
  have hlive : (h.cell p).isSome := by rw [hp]; rfl
  exact ⟨_, by rw [free, if_pos hlive], rfl⟩

theorem modify_some {h h' : Heap α} {p : Ptr} {f : α → α} (hmod : h.modify p f = some h') :
    ∃ y, h.cell p = some y ∧ h'.cell = Function.update h.cell p (some (f y)) ∧
      h'.brk = h.brk := by
  cases hp : h.cell p with
  | none => simp [modify, load, hp] at hmod
  | some y =>
      obtain ⟨h'', hmod', hcell, hbrk⟩ := modify_eq hp f
      rw [hmod] at hmod'
      cases hmod'
      exact ⟨y, rfl, hcell, hbrk⟩

theorem free_some {h h' : Heap α} {p : Ptr} (hfree : h.free p = some h') :
    ∃ y, h.cell p = some y ∧ h'.cell = Function.update h.cell p none ∧ h'.brk = h.brk := by
  cases hp : h.cell p with
  | none => simp [free, hp] at hfree
  | some y =>
      rw [free, hp] at hfree
      cases hfree
      exact ⟨y, rfl, rfl, rfl⟩

/-! ## Live cells -/

/-- The addresses of the live cells. -/
def live (h : Heap α) : Finset Ptr :=
  (Finset.range h.brk).filter (fun p => (h.cell p).isSome)

theorem mem_live {h : Heap α} {p : Ptr} : p ∈ h.live ↔ ∃ x, h.cell p = some x := by
  rw [live, Finset.mem_filter, Finset.mem_range, Option.isSome_iff_exists]
  exact ⟨And.right, fun ⟨x, hx⟩ => ⟨h.lt_brk hx, x, hx⟩⟩

theorem notMem_live {h : Heap α} {p : Ptr} : p ∉ h.live ↔ h.cell p = none := by
  rw [mem_live, Option.eq_none_iff_forall_ne_some]
  exact not_exists

theorem null_notMem_live (h : Heap α) : null ∉ h.live :=
  notMem_live.mpr h.cell_null

theorem live_modify {h h' : Heap α} {p : Ptr} {f : α → α} (hmod : h.modify p f = some h') :
    h'.live = h.live := by
  obtain ⟨y, hy, hcell, -⟩ := modify_some hmod
  ext q
  rw [mem_live, mem_live, hcell]
  by_cases hq : q = p
  · simp [hq, hy]
  · simp [hq]

theorem live_alloc (h : Heap α) (x : α) : (h.alloc x).2.live = insert (h.alloc x).1 h.live := by
  ext q
  rw [Finset.mem_insert, mem_live, mem_live, alloc_cell]
  by_cases hq : q = (h.alloc x).1
  · simp [hq]
  · simp [hq]

theorem free_live {h h' : Heap α} {p : Ptr} (hfree : h.free p = some h') :
    p ∈ h.live ∧ h'.live = h.live.erase p := by
  obtain ⟨y, hy, hcell, -⟩ := free_some hfree
  refine ⟨mem_live.mpr ⟨y, hy⟩, ?_⟩
  ext q
  rw [Finset.mem_erase, mem_live, mem_live, hcell]
  by_cases hq : q = p
  · simp [hq]
  · simp [hq]

/-- Every release leaves fewer live cells. -/
theorem card_live_free {h h' : Heap α} {p : Ptr} (hfree : h.free p = some h') :
    h'.live.card < h.live.card := by
  obtain ⟨hp, hlive⟩ := free_live hfree
  rw [hlive]
  exact Finset.card_erase_lt_of_mem hp

/-! ## Fields -/

section Field

variable {β : Type*} {h h' : Heap α} {p : Ptr} {proj : α → β} {f : α → α}

/-- The field `proj` of the record in the cell at `p`. -/
def field (h : Heap α) (proj : α → β) (p : Ptr) : Option β := (h.load p).map proj

theorem field_congr (hcell : h'.cell p = h.cell p) : h'.field proj p = h.field proj p := by
  rw [field, field, load, load, hcell]

theorem field_eq_some {b : β} : h.field proj p = some b ↔ ∃ x, h.cell p = some x ∧ proj x = b :=
  Option.map_eq_some_iff

theorem mem_live_of_field {b : β} (hp : h.field proj p = some b) : p ∈ h.live := by
  obtain ⟨x, hx, -⟩ := field_eq_some.mp hp
  exact mem_live.mpr ⟨x, hx⟩

theorem field_of_update {h h' : Heap α} {y : Option α}
    (hcell : h'.cell = Function.update h.cell p y) :
    h'.field proj = Function.update (h.field proj) p (y.map proj) := by
  funext q
  by_cases hq : q = p
  · rw [hq, Function.update_self, field, load, hcell, Function.update_self]
  · rw [Function.update_of_ne hq, field, field, load, load, hcell, Function.update_of_ne hq]

/-- A write that sets the field. -/
theorem field_modify {v : β} (hmod : h.modify p f = some h') (hset : ∀ x, proj (f x) = v) :
    h'.field proj = Function.update (h.field proj) p (some v) := by
  obtain ⟨y, -, hcell, -⟩ := modify_some hmod
  rw [field_of_update hcell, Option.map_some, hset]

/-- A write that does not touch the field. -/
theorem field_modify_keep (hmod : h.modify p f = some h') (hkeep : ∀ x, proj (f x) = proj x) :
    h'.field proj = h.field proj := by
  obtain ⟨y, hy, hcell, -⟩ := modify_some hmod
  rw [field_of_update hcell, Option.map_some, hkeep, Function.update_eq_self_iff, field, load,
    hy, Option.map_some]

theorem field_alloc (x : α) :
    (h.alloc x).2.field proj = Function.update (h.field proj) (h.alloc x).1 (some (proj x)) :=
  field_of_update (alloc_cell h x)

theorem field_free (hfree : h.free p = some h') :
    h'.field proj = Function.update (h.field proj) p none := by
  obtain ⟨y, -, hcell, -⟩ := free_some hfree
  exact field_of_update hcell

end Field

/-! ## The cells of an object -/

/-- From `h` to `h'` the cells `as` of an object became `bs`: no other cell has
changed, a cell given up is dead, and a new one has an address that was not handed
out before. -/
structure Exchange (h h' : Heap α) (as bs : List Ptr) : Prop where
  frame : ∀ p, p ∉ as → p ∉ bs → h'.cell p = h.cell p
  released : ∀ p ∈ as, p ∉ bs → h'.cell p = none
  fresh : ∀ p ∈ bs, p ∉ as → h.brk ≤ p
  brk_le : h.brk ≤ h'.brk

/-- An address that was handed out and is not live any more. -/
def Lost (h : Heap α) (p : Ptr) : Prop := p < h.brk ∧ h.cell p = none

namespace Exchange

variable {h h' h'' : Heap α} {as bs cs : List Ptr} {p : Ptr}

theorem refl (h : Heap α) (as : List Ptr) : Exchange h h as as where
  frame _ _ _ := rfl
  released _ hp hq := absurd hp hq
  fresh _ hp hq := absurd hp hq
  brk_le := Nat.le_refl _

theorem trans (x : Exchange h h' as bs) (y : Exchange h' h'' bs cs) :
    Exchange h h'' as cs where
  frame p ha hc := by
    by_cases hb : p ∈ bs
    · rw [y.released p hb hc, h.cell_above p (x.fresh p hb ha)]
    · rw [y.frame p hb hc, x.frame p ha hb]
  released p ha hc := by
    by_cases hb : p ∈ bs
    · exact y.released p hb hc
    · rw [y.frame p hb hc, x.released p ha hb]
  fresh p hc ha := by
    by_cases hb : p ∈ bs
    · exact x.fresh p hb ha
    · exact Nat.le_trans x.brk_le (y.fresh p hc hb)
  brk_le := Nat.le_trans x.brk_le y.brk_le

/-- A cell of the object is overwritten. -/
theorem overwrite {y : α} (hcell : h'.cell = Function.update h.cell p (some y))
    (hbrk : h'.brk = h.brk) (hp : p ∈ as) : Exchange h h' as as where
  frame q hq _ := by
    rw [hcell, Function.update_of_ne (fun he : q = p => hq (he ▸ hp))]
  released _ hq hq' := absurd hq hq'
  fresh _ hq hq' := absurd hq hq'
  brk_le := Nat.le_of_eq hbrk.symm

theorem modify {f : α → α} (hmod : h.modify p f = some h') (hp : p ∈ as) :
    Exchange h h' as as := by
  obtain ⟨y, -, hcell, hbrk⟩ := modify_some hmod
  exact .overwrite hcell hbrk hp

theorem alloc (h : Heap α) (x : α) (hbs : ∀ q, q ∈ bs ↔ q = (h.alloc x).1 ∨ q ∈ as) :
    Exchange h (h.alloc x).2 as bs where
  frame q _ hq := by
    rw [hbs q, not_or] at hq
    rw [alloc_cell, Function.update_of_ne hq.1]
  released q hq hq' := absurd ((hbs q).mpr (.inr hq)) hq'
  fresh q hq hq' := by
    obtain rfl := ((hbs q).mp hq).resolve_right hq'
    exact Nat.le_refl _
  brk_le := Nat.le_succ _

theorem free (hfree : h.free p = some h') (hp : p ∈ as)
    (hbs : ∀ q, q ∈ bs ↔ q ∈ as ∧ q ≠ p) : Exchange h h' as bs where
  frame q hq _ := by
    obtain ⟨y, -, hcell, -⟩ := free_some hfree
    rw [hcell, Function.update_of_ne (fun he : q = p => hq (he ▸ hp))]
  released q hq hq' := by
    obtain ⟨y, -, hcell, -⟩ := free_some hfree
    have he : q = p := by
      by_contra hne
      exact hq' ((hbs q).mpr ⟨hq, hne⟩)
    rw [hcell, he, Function.update_self]
  fresh q hq hq' := absurd ((hbs q).mp hq).1 hq'
  brk_le := by
    obtain ⟨y, -, -, hbrk⟩ := free_some hfree
    exact Nat.le_of_eq hbrk.symm

/-- Cells of two objects, one after the other. -/
theorem append {ds : List Ptr} (x : Exchange h h' as bs) (y : Exchange h' h'' cs ds) :
    Exchange h h'' (as ++ cs) (bs ++ ds) where
  frame p ha hb := by
    rw [List.mem_append, not_or] at ha hb
    rw [y.frame p ha.2 hb.2, x.frame p ha.1 hb.1]
  released p ha hb := by
    rw [List.mem_append, not_or] at hb
    by_cases hc : p ∈ cs
    · exact y.released p hc hb.2
    · rw [y.frame p hc hb.2]
      exact x.released p ((List.mem_append.mp ha).resolve_right hc) hb.1
  fresh p hb ha := by
    rw [List.mem_append, not_or] at ha
    rcases List.mem_append.mp hb with hb | hd
    · exact x.fresh p hb ha.1
    · exact Nat.le_trans x.brk_le (y.fresh p hd ha.2)
  brk_le := Nat.le_trans x.brk_le y.brk_le

/-- A cell of the object that is not concerned. -/
theorem cons (x : Exchange h h' as bs) (p : Ptr) : Exchange h h' (p :: as) (p :: bs) :=
  (refl h [p]).append x

/-- An object that owns every live cell still does. -/
theorem owned (x : Exchange h h' as bs) (hbs : ∀ p ∈ bs, p ∈ h'.live)
    (hown : ∀ p, p ∈ h.live ↔ p ∈ as) (p : Ptr) : p ∈ h'.live ↔ p ∈ bs := by
  refine ⟨fun hp => ?_, hbs p⟩
  by_contra hb
  have hdead : h'.cell p = none := by
    by_cases ha : p ∈ as
    · exact x.released p ha hb
    · rw [x.frame p ha hb]
      exact notMem_live.mp (mt (hown p).mp ha)
  exact notMem_live.mpr hdead hp

/-- A live cell of another object is not touched. -/
theorem other (x : Exchange h h' as bs) (hp : p ∈ h.live) (ha : p ∉ as) :
    p ∉ bs ∧ h'.cell p = h.cell p := by
  have hb : p ∉ bs := by
    intro hb
    exact notMem_live.mpr (h.cell_above p (x.fresh p hb ha)) hp
  exact ⟨hb, x.frame p ha hb⟩

/-- A lost address stays lost. -/
theorem lost (x : Exchange h h' as bs) (has : ∀ p ∈ as, p ∈ h.live) (hp : h.Lost p) :
    h'.Lost p := by
  have ha : p ∉ as := fun ha => notMem_live.mpr hp.2 (has p ha)
  have hb : p ∉ bs := fun hb => absurd (x.fresh p hb ha) (Nat.not_le_of_lt hp.1)
  exact ⟨Nat.lt_of_lt_of_le hp.1 x.brk_le, (x.frame p ha hb).trans hp.2⟩

/-- An address the object gave up is lost. -/
theorem lost_of_released (x : Exchange h h' as bs) (has : ∀ p ∈ as, p ∈ h.live) (ha : p ∈ as)
    (hb : p ∉ bs) : h'.Lost p := by
  obtain ⟨y, hy⟩ := mem_live.mp (has p ha)
  exact ⟨Nat.lt_of_lt_of_le (h.lt_brk hy) x.brk_le, x.released p ha hb⟩

end Exchange

end Heap
end Keel
