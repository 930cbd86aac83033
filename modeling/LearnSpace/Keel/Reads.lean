import Mathlib.Data.List.Basic

/-!
# Computations that read memory

A computation that reads one cell after another, at positions it may work out from what it has
read. A run of it on a memory keeps the positions it went to and fails at the first one outside,
so it succeeds exactly when all of them are inside (`run_isSome_iff`). On the front of a memory it
succeeds exactly when it does on the whole and never leaves the front (`run_front_iff`), which
makes "reads only what was received" a matter of running on that alone.
-/

namespace Keel

universe u v

/-- A computation with the result `a`, or one that goes on with the cell at `pos`. -/
inductive Reads (β : Type u) (α : Type v) where
  | done (a : α)
  | read (pos : Int) (next : β → Reads β α)

/-- The cell at a position. -/
def cell {β : Type u} (mem : List β) (pos : Int) : Option β :=
  if 0 ≤ pos then mem[pos.toNat]? else none

namespace Reads

variable {β : Type u} {α γ : Type v} {mem front rest : List β} {pos : Int}

/-- Goes on with the result of the first computation. -/
def bind : Reads β α → (α → Reads β γ) → Reads β γ
  | done a, f => f a
  | read pos next, f => read pos fun b => (next b).bind f

instance : Monad (Reads β) where
  pure := done
  bind := bind

/-- The cell at `pos` itself. -/
def get (pos : Int) : Reads β β := read pos done

/-- The result on a memory, `none` when a position is outside. -/
def run (mem : List β) : Reads β α → Option α
  | done a => some a
  | read pos next => (cell mem pos).bind fun b => (next b).run mem

/-- The positions read on a memory, up to the first one outside. -/
def positions (mem : List β) : Reads β α → List Int
  | done _ => []
  | read pos next => pos :: (cell mem pos).elim [] fun b => (next b).positions mem

/-! ## Cells -/

theorem cell_isSome_iff : (cell mem pos).isSome ↔ 0 ≤ pos ∧ pos < mem.length := by
  unfold cell
  split
  · rw [isSome_getElem?]
    omega
  · simp only [Option.isSome_none, Bool.false_eq_true, false_iff]
    omega

theorem cell_eq_some_bounds {b : β} (h : cell mem pos = some b) :
    0 ≤ pos ∧ pos < mem.length :=
  cell_isSome_iff.mp (Option.isSome_iff_exists.mpr ⟨b, h⟩)

/-- The front of a memory has the same cells. -/
theorem cell_front (h : pos < front.length) : cell (front ++ rest) pos = cell front pos := by
  unfold cell
  split
  · exact List.getElem?_append_left (by omega)
  · rfl

/-- A cell of a section is one of the memory, that much further on. -/
theorem cell_drop (start i : Nat) :
    cell mem ((start : Int) + i) = (mem.drop start)[i]? := by
  have hpos : (0 : Int) ≤ (start : Int) + i := by omega
  have hnat : ((start : Int) + i).toNat = start + i := by omega
  rw [cell, if_pos hpos, hnat, List.getElem?_drop]

/-! ## Runs -/

@[simp] theorem run_pure (a : α) : (pure a : Reads β α).run mem = some a := rfl

@[simp] theorem run_read (next : β → Reads β α) :
    (read pos next).run mem = (cell mem pos).bind fun b => (next b).run mem := rfl

@[simp] theorem run_get : (get pos : Reads β β).run mem = cell mem pos := by
  unfold get
  rw [run_read]
  exact Option.bind_fun_some _

@[simp] theorem run_bind (p : Reads β α) (f : α → Reads β γ) :
    (p >>= f).run mem = (p.run mem).bind fun a => (f a).run mem := by
  show (p.bind f).run mem = _
  induction p with
  | done a => rfl
  | read pos next ih =>
      simp only [bind, run_read, Option.bind_assoc]
      congr 1
      funext b
      exact ih b

@[simp] theorem positions_pure (a : α) : (pure a : Reads β α).positions mem = [] := rfl

@[simp] theorem positions_read (next : β → Reads β α) :
    (read pos next).positions mem =
      pos :: (cell mem pos).elim [] fun b => (next b).positions mem := rfl

/-- A computation reads what its first part does, and then what its second part does. -/
theorem positions_bind (p : Reads β α) (f : α → Reads β γ) :
    (p >>= f).positions mem =
      p.positions mem ++ (p.run mem).elim [] fun a => (f a).positions mem := by
  show (p.bind f).positions mem = _
  induction p with
  | done a => rfl
  | read pos next ih =>
      simp only [bind, positions_read, run_read, List.cons_append]
      cases cell mem pos with
      | none => rfl
      | some b =>
          congr 1
          exact ih b

/-- **A run succeeds exactly when every position it reads is inside the memory.** -/
theorem run_isSome_iff (p : Reads β α) :
    (p.run mem).isSome ↔ ∀ i ∈ p.positions mem, 0 ≤ i ∧ i < mem.length := by
  induction p with
  | done a => simp [run, positions]
  | read pos next ih =>
      rw [positions_read, run_read]
      cases hcell : cell mem pos with
      | none =>
          have hout : ¬ (0 ≤ pos ∧ pos < mem.length) := by
            intro hin
            rw [← cell_isSome_iff, hcell] at hin
            cases hin
          simp [hout]
      | some b =>
          have hin := cell_eq_some_bounds hcell
          simp [ih b, hin]

/-- **On the front of a memory a run succeeds exactly when it does on the whole and reads
nothing behind the front.** -/
theorem run_front_iff (p : Reads β α) (a : α) :
    p.run front = some a ↔
      p.run (front ++ rest) = some a ∧
        ∀ i ∈ p.positions (front ++ rest), i < front.length := by
  induction p with
  | done a' => simp [run, positions]
  | read pos next ih =>
      simp only [positions_read, run_read]
      by_cases hpos : pos < front.length
      · rw [cell_front hpos]
        cases hcell : cell front pos with
        | none => simp
        | some b =>
            simp only [Option.bind_some, Option.elim_some, List.mem_cons, forall_eq_or_imp, hpos,
              true_and]
            exact ih b
      · -- this read leaves the front, on which it fails
        have hnone : cell front pos = none := by
          rw [← Option.not_isSome_iff_eq_none, cell_isSome_iff]
          omega
        simp [hnone, hpos]

end Reads

end Keel
