import LearnSpace.Keel.Heap
import LearnSpace.Keel.Machine
import LearnSpace.Keel.While

/-!
# The same heap under other addresses

A program that compares addresses for equality only and follows the pointers it finds
does the same on two heaps whose live cells correspond, up to the names of the addresses.
`Heap.Renames ρ f h h'` says that `ρ` names the addresses of `h` in `h'`, and that a cell
`x` of `h` is `f x` there, where `f` renames the pointers in it. Other cells of `h'` do
not matter.

Two partial computations that correspond are stated by `Option.Rel`: both have no outcome,
or they have corresponding ones (`rel_bind`).
-/

namespace Keel

open Function

/-! ## Corresponding outcomes -/

section Rel

variable {α β γ δ : Type*} {R : α → β → Prop} {S : γ → δ → Prop}

theorem rel_bind {a : Option α} {b : Option β} {f : α → Option γ} {g : β → Option δ}
    (h : Option.Rel R a b) (hfg : ∀ x y, R x y → Option.Rel S (f x) (g y)) :
    Option.Rel S (a.bind f) (b.bind g) := by
  cases h with
  | none => exact .none
  | some hxy => exact hfg _ _ hxy

theorem rel_map {a : Option α} {b : Option β} {f : α → γ} {g : β → δ}
    (h : Option.Rel R a b) (hfg : ∀ x y, R x y → S (f x) (g y)) :
    Option.Rel S (a.map f) (b.map g) := by
  cases h with
  | none => exact .none
  | some hxy => exact .some (hfg _ _ hxy)

/-- What a renaming makes of an outcome. -/
theorem rel_of_map {f : α → β} {a : Option α} {b : Option β} (h : b = a.map f) :
    Option.Rel (fun x y => y = f x) a b := by
  subst h
  cases a with
  | none => exact .none
  | some x => exact .some rfl

end Rel

/-- Loops whose rounds correspond come to corresponding ends. -/
theorem While.run_rel {σ τ ε ε' α β : Type*} {W : While σ ε α} {W' : While τ ε' β}
    {R : σ → τ → Prop} {S : α → β → Prop}
    (hbody : ∀ s t, R s t →
      Option.Rel (Sum.LiftRel R S) (W.body s).toOption (W'.body t).toOption) :
    ∀ {s t}, R s t → Option.Rel S (W.run s).toOption (W'.run t).toOption := by
  intro s
  induction hm : W.measure s using Nat.strongRecOn generalizing s with
  | ind m ih =>
      intro t hst
      have hround := hbody s t hst
      rw [W.run_eq, W'.run_eq]
      cases hs : W.body s with
      | error e =>
          rw [hs] at hround
          cases ht : W'.body t with
          | error e' => exact .none
          | ok r' =>
              rw [ht] at hround
              cases hround
      | ok r =>
          rw [hs] at hround
          cases ht : W'.body t with
          | error e' =>
              rw [ht] at hround
              cases hround
          | ok r' =>
              rw [ht] at hround
              cases hround with
              | some hrel =>
                  cases hrel with
                  | inl h => exact ih _ (hm ▸ W.decreases _ _ hs) rfl h
                  | inr h => exact .some h

/-- Machines whose calls correspond, with equal outputs, have corresponding runs. -/
theorem Machine.run_rel {σ τ ι ο : Type*} {M : Machine σ ι ο} {N : Machine τ ι ο}
    {R : σ → τ → Prop}
    (hexec : ∀ s t i, R s t →
      Option.Rel (fun x y => R x.1 y.1 ∧ x.2 = y.2) (M.exec s i) (N.exec t i)) (is : List ι) :
    ∀ {s t}, R s t →
      Option.Rel (fun x y => R x.1 y.1 ∧ x.2 = y.2) (M.run s is) (N.run t is) := by
  induction is with
  | nil =>
      intro s t hst
      exact .some ⟨hst, rfl⟩
  | cons i is ih =>
      intro s t hst
      apply rel_bind (hexec s t i hst)
      rintro ⟨s', o⟩ ⟨t', o'⟩ ⟨hst', ho⟩
      obtain rfl : o = o' := ho
      apply rel_bind (ih hst')
      rintro ⟨s'', os⟩ ⟨t'', os'⟩ ⟨hst'', hos⟩
      obtain rfl : os = os' := hos
      exact .some ⟨hst'', rfl⟩

/-! ## Heaps -/

namespace Heap

variable {α : Type*} {ρ : Ptr → Ptr} {f : α → α} {h h' : Heap α}

/-- `h'` has what is in `h`, under the addresses that `ρ` gives. -/
structure Renames (ρ : Ptr → Ptr) (f : α → α) (h h' : Heap α) : Prop where
  injective : Injective ρ
  null : ρ null = null
  brk : ∀ n, ρ (h.brk + n) = h'.brk + n
  cell : ∀ p, h'.cell (ρ p) = (h.cell p).map f

namespace Renames

/-- Corresponding cells got corresponding contents. -/
theorem update {h₁ h₁' : Heap α} (r : Renames ρ f h h') {p : Ptr} {x : Option α}
    (hcell : h₁.cell = Function.update h.cell p x)
    (hcell' : h₁'.cell = Function.update h'.cell (ρ p) (x.map f))
    (hbrk : ∀ n, ρ (h₁.brk + n) = h₁'.brk + n) : Renames ρ f h₁ h₁' where
  injective := r.injective
  null := r.null
  brk := hbrk
  cell q := by
    by_cases hq : q = p
    · rw [hcell, hcell', hq, update_self, update_self]
    · rw [hcell, hcell', update_of_ne hq, update_of_ne (r.injective.ne hq), r.cell]

/-- A field that holds no pointer, or a pointer, which is renamed. -/
theorem field {β : Type*} (r : Renames ρ f h h') (proj : α → β) (g : β → β)
    (hproj : ∀ x, proj (f x) = g (proj x)) (p : Ptr) :
    h'.field proj (ρ p) = (h.field proj p).map g := by
  rw [Heap.field, Heap.field, load, load, r.cell, Option.map_map, Option.map_map]
  congr 1
  funext x
  exact hproj x

theorem modify (r : Renames ρ f h h') (g g' : α → α) (hg : ∀ x, g' (f x) = f (g x)) (p : Ptr) :
    Option.Rel (Renames ρ f) (h.modify p g) (h'.modify (ρ p) g') := by
  have hcell := r.cell p
  cases hp : h.cell p with
  | none =>
      rw [hp] at hcell
      rw [Heap.modify, Heap.modify, load, load, hp, hcell]
      exact .none
  | some x =>
      rw [hp] at hcell
      obtain ⟨h₁, e₁, c₁, b₁⟩ := modify_eq hp g
      obtain ⟨h₁', e₁', c₁', b₁'⟩ := modify_eq hcell g'
      rw [e₁, e₁']
      refine .some (r.update c₁ ?_ ?_)
      · rw [c₁', hg]
        rfl
      · rw [b₁, b₁']
        exact r.brk

theorem free (r : Renames ρ f h h') (p : Ptr) :
    Option.Rel (Renames ρ f) (h.free p) (h'.free (ρ p)) := by
  have hcell := r.cell p
  cases hp : h.cell p with
  | none =>
      rw [hp] at hcell
      rw [Heap.free, Heap.free, hp, hcell]
      exact .none
  | some x =>
      rw [hp] at hcell
      have hlive : (h.cell p).isSome := by
        rw [hp]
        rfl
      have hlive' : (h'.cell (ρ p)).isSome := by
        rw [hcell]
        rfl
      rw [Heap.free, Heap.free, if_pos hlive, if_pos hlive']
      exact .some (r.update (x := Option.none) rfl rfl r.brk)

theorem alloc_address (r : Renames ρ f h h') (x y : α) :
    (h'.alloc y).1 = ρ (h.alloc x).1 :=
  (r.brk 0).symm

theorem alloc (r : Renames ρ f h h') (x : α) :
    Renames ρ f (h.alloc x).2 (h'.alloc (f x)).2 := by
  refine r.update (p := h.brk) (x := some x) rfl ?_ ?_
  · rw [alloc_cell, r.alloc_address x]
    rfl
  · intro n
    show ρ (h.brk + 1 + n) = h'.brk + 1 + n
    rw [Nat.add_assoc, Nat.add_assoc, r.brk]

end Renames
end Heap
end Keel
