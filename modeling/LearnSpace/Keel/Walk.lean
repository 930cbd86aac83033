import LearnSpace.Keel.Fuel
import LearnSpace.Keel.Linked

/-!
# Walks along a chain

A loop that follows a link field until a link is the one it looks for. On a chain that ends
there the walk arrives at the last node (`walk_arrives`). A loop that comes back to the state
it was in never ends (`Undefined.of_stuck`), and one that ends has one result, whatever the
fuel (`loop_unique`).
-/

namespace Keel.Fuel

universe u v

variable {σ : Type u} {ρ : Type v}

/-- An iteration that changes nothing is repeated for good. -/
theorem Undefined.of_stuck {body : σ → Option (σ ⊕ ρ)} {s : σ} (h : body s = some (.inl s)) :
    Undefined body s := by
  intro fuel
  induction fuel with
  | zero => rfl
  | succ fuel ih =>
      rw [loop_next h]
      exact ih

/-- The result does not depend on the fuel. -/
theorem loop_unique {body : σ → Option (σ ⊕ ρ)} {s : σ} {n m : Nat} {a b : ρ}
    (ha : loop body n s = some a) (hb : loop body m s = some b) : a = b := by
  have ha' := loop_mono ha m
  rw [Nat.add_comm, loop_mono hb n] at ha'
  exact (Option.some.inj ha').symm

variable {ι : Type u} [DecidableEq ι] {f : ι → Option ι} {a b : ι} {xs : List ι}

/-- One turn of a walk along `f` that stops in front of `b`. -/
def walk (f : ι → Option ι) (b a : ι) : Option (ι ⊕ ι) :=
  (f a).map fun next => if next = b then .inr a else .inl next

/-- The walk stops at the last node of a chain that ends in `b` and does not pass it. -/
theorem walk_arrives (h : Seg f a xs b) (hb : b ∉ xs) :
    loop (walk f b) (xs.length + 1) a = some (xs.getLastD a) := by
  induction xs generalizing a with
  | nil =>
      apply loop_leave
      simp [walk, Seg.nil_iff.mp h]
  | cons x xs ih =>
      have hx : x ≠ b := by
        intro heq
        exact hb (heq ▸ List.mem_cons_self)
      have hnext : walk f b a = some (.inl x) := by simp [walk, h.1, hx]
      rw [List.length_cons, loop_next hnext, List.getLastD_cons]
      exact ih h.2 (fun hmem => hb (List.mem_cons_of_mem x hmem))

end Keel.Fuel
