import LearnSpace.DataStructure.TreeTraversal

/-!
# The in-order traversal with a stack

The loops of `inorderTraversalV2` go through a tree in order: what is on the stack are the
nodes whose left subtree is being worked off. At a node they look at its datum where
`inorderTraversal` calls the functor, and a datum that converts to `true` ends the
traversal. So no datum of any tree is ever visited.
-/

namespace LearnSpace.DataStructure.Tree

open Keel Function Stack.Pool

variable {T S W : Type}

/-! ## The recursive traversal -/

/-- The data in order. -/
def inorder : Tree T → List T
  | .invalid => []
  | .node left data right => inorder left ++ data :: inorder right

/-- Recursion visits a tree in order. -/
theorem inorderTraversal_calls {visitor : Visitor T S W} (hgo : NeverStops visitor)
    (t : Tree T) : ∀ (s : S) (w : W × List (T × Bool)),
      (inorderTraversal (recorded visitor) t s w).2 = w.2 ++ (inorder t).map (·, false) := by
  induction t with
  | invalid =>
      intro s w
      exact (List.append_nil w.2).symm
  | node left data right ihl ihr =>
      intro s w
      have hcall (u : W × List (T × Bool)) : (recorded visitor s u data).1 = false :=
        neverStops_recorded hgo s u data
      have hrecord (u : W × List (T × Bool)) :
          (recorded visitor s u data).2.2.2 = u.2 ++ [(data, false)] := by
        rw [recorded, hgo s u.1 data]
      simp only [inorderTraversal, hcall, Bool.false_eq_true, if_false, ihr, hrecord, ihl, inorder,
        List.map_append, List.map_cons, List.append_assoc, List.cons_append, List.nil_append]

/-! ## The loops -/

/-- How far the stack of `inorderTraversalV2` grows for a node and what is below it. -/
def ancestors : Tree T → Nat
  | .invalid => 0
  | .node left _ right => max (ancestors left + 1) (ancestors right)

section Loops

variable (build : Build) (truthy : T → Bool) {σ : Locals T}
  {tss : Local → Option (List (Tree T))} {ts : List (Tree T)}

/-- The inner loop ends with something on the stack. -/
theorem descend_ends (t : Tree T) :
    ∀ {σ : Locals T} {tss : Local → Option (List (Tree T))} {ts : List (Tree T)} {F : Nat},
      Holds σ tss → tss .stack = some ts → ts.length + ancestors t ≤ 2 ^ 31 → nodes t < F →
      ∃ σ', Fuel.loop (descendBody build) F (σ, t) = some σ' := by
  induction t with
  | invalid =>
      intro σ tss ts F r hx _ hfuel
      obtain ⟨fuel, rfl⟩ := Nat.exists_eq_succ_of_ne_zero (Nat.ne_zero_of_lt hfuel)
      exact ⟨σ, Fuel.loop_leave rfl fuel⟩
  | node left data right ihl ihr =>
      intro σ tss ts F r hx hroom hfuel
      rw [ancestors] at hroom
      rw [nodes] at hfuel
      obtain ⟨fuel, rfl⟩ := Nat.exists_eq_succ_of_ne_zero (Nat.ne_zero_of_lt hfuel)
      obtain ⟨σ1, hpush, r1⟩ := push_spec build r hx (by omega) (.node left data right)
      obtain ⟨σ', hloop⟩ := ihl (F := fuel) r1 (update_self ..)
        (by rw [List.length_append, List.length_singleton]; omega) (by omega)
      have hbody : descendBody build (σ, .node left data right) = some (.inl (σ1, left)) := by
        simp only [descendBody, hpush, Option.bind_eq_bind, Option.bind_some, Option.pure_def]
      exact ⟨σ', (Fuel.loop_next hbody fuel).trans hloop⟩

/-- An iteration at the end of a branch takes the node on top. -/
theorem inorderBody_top {left right : Tree T} {data : T} (r : Holds σ tss)
    (hx : tss .stack = some (ts ++ [.node left data right])) (fuel : Nat) :
    ∃ σ', inorderBody build truthy (fuel + 1) (σ, .invalid) =
        some (if truthy data then .inr σ' else .inl (σ', right)) ∧
      Holds σ' (update tss .stack (some ts)) := by
  obtain ⟨σ', hpop, r'⟩ := pop_spec build r hx
  have hinner : Fuel.loop (descendBody build) (fuel + 1) (σ, .invalid) = some σ :=
    Fuel.loop_leave rfl fuel
  refine ⟨σ', ?_, r'⟩
  simp only [inorderBody, isEmpty_top r hx, hinner, hpop, Bool.false_eq_true, not_false_eq_true,
    or_true, not_true_eq_false, if_false, Option.bind_eq_bind, Option.bind_some, Option.pure_def]
  split <;> rfl

/-- The first iteration at a node is the one at its left child, with the node on the stack. -/
theorem inorderBody_node {left right : Tree T} {data : T} (r : Holds σ tss)
    (hx : tss .stack = some ts)
    (hroom : ts.length + ancestors (.node left data right) ≤ 2 ^ 31) {fuel : Nat}
    (hfuel : nodes (.node left data right) < fuel) :
    ∃ σ', inorderBody build truthy fuel (σ, .node left data right) =
        inorderBody build truthy fuel (σ', left) ∧
      Holds σ' (update tss .stack (some (ts ++ [.node left data right]))) := by
  rw [ancestors] at hroom
  rw [nodes] at hfuel
  obtain ⟨fuel, rfl⟩ := Nat.exists_eq_succ_of_ne_zero (Nat.ne_zero_of_lt hfuel)
  obtain ⟨σ1, hpush, r1⟩ := push_spec build r hx (by omega) (.node left data right)
  obtain ⟨σ2, hinner⟩ := descend_ends (F := fuel) build left r1 (update_self ..)
    (by rw [List.length_append, List.length_singleton]; omega) (by omega)
  have hbody : descendBody build (σ, .node left data right) = some (.inl (σ1, left)) := by
    simp only [descendBody, hpush, Option.bind_eq_bind, Option.bind_some, Option.pure_def]
  have hinner' := Fuel.loop_mono hinner 1
  refine ⟨σ1, ?_, r1⟩
  simp only [inorderBody, isEmpty_spec r hx, isEmpty_top r1 (update_self ..), valid, true_or,
    Bool.false_eq_true, not_false_eq_true, or_true, not_true_eq_false, if_false,
    Fuel.loop_next hbody, hinner, hinner', Option.bind_eq_bind, Option.bind_some]

/-- The outer loop works off a tree, or returns on the way. -/
theorem inorder_goes (t : Tree T) :
    ∀ {σ : Locals T} {tss : Local → Option (List (Tree T))} {ts : List (Tree T)} {F : Nat},
      Holds σ tss → tss .stack = some ts → ts.length + ancestors t ≤ 2 ^ 31 → nodes t < F →
      ∃ σ' us, Holds σ' (update tss .stack (some us)) ∧
        (us = ts ∧ Fuel.Goes (inorderBody build truthy F) (nodes t) (σ, t) (σ', .invalid) ∨
          Fuel.loop (inorderBody build truthy F) (nodes t) (σ, t) = some σ') := by
  induction t with
  | invalid =>
      intro σ tss ts F r hx _ _
      refine ⟨σ, ts, ?_, .inl ⟨rfl, .refl _⟩⟩
      rw [← hx, update_eq_self]
      exact r
  | node left data right ihl ihr =>
      intro σ tss ts F r hx hroom hfuel
      obtain ⟨σ1, hsame, r1⟩ := inorderBody_node build truthy r hx hroom hfuel
      rw [ancestors] at hroom
      rw [nodes] at hfuel ⊢
      obtain ⟨fuel, rfl⟩ := Nat.exists_eq_succ_of_ne_zero (Nat.ne_zero_of_lt hfuel)
      obtain ⟨σ2, us, r2, ⟨rfl, hleft⟩ | hleft⟩ := ihl (F := fuel + 1) r1 (update_self ..)
        (by rw [List.length_append, List.length_singleton]; omega) (by omega)
      · rw [update_idem] at r2
        obtain ⟨σ3, htop, r3⟩ := inorderBody_top build truthy r2 (update_self ..) fuel
        rw [update_idem] at r3
        cases hdata : truthy data with
        | true =>
            -- the datum ends the traversal
            rw [hdata, if_pos rfl] at htop
            have hloop := Fuel.loop_of_same hsame ((hleft 1).trans (Fuel.loop_leave htop 0))
            have hmono := Fuel.loop_mono hloop (nodes right)
            refine ⟨σ3, ts, r3, .inr ?_⟩
            rwa [Nat.add_right_comm] at hmono
        | false =>
            rw [hdata, if_neg Bool.false_ne_true] at htop
            have hgoes : Fuel.Goes (inorderBody build truthy (fuel + 1)) (nodes left + 1)
                (σ, .node left data right) (σ3, right) :=
              .of_same hsame (hleft.trans (.next htop))
            obtain ⟨σ4, us, r4, hright⟩ := ihr (F := fuel + 1) r3 (update_self ..) (by omega)
              (by omega)
            rw [update_idem] at r4
            refine ⟨σ4, us, r4, ?_⟩
            rw [Nat.add_right_comm]
            rcases hright with ⟨rfl, hright⟩ | hright
            · exact .inl ⟨rfl, hgoes.trans hright⟩
            · exact .inr ((hgoes _).trans hright)
      · rw [update_idem] at r2
        refine ⟨σ2, us, r2, .inr ?_⟩
        have hmono := Fuel.loop_mono (Fuel.loop_of_same hsame hleft) (nodes right + 1)
        rwa [← Nat.add_assoc] at hmono

end Loops

/-! ## What is visited -/

section Agreement

variable (build : Build) (truthy : T → Bool)

/-- `inorderTraversalV2` ends, if its stack can hold the nodes above a branch, and has
visited nothing. -/
theorem inorderTraversalV2_ends (visitor : Visitor T S W) (t : Tree T)
    (hroom : ancestors t ≤ 2 ^ 31) (s : S) (w : W) :
    inorderTraversalV2 build truthy visitor (nodes t + 1) t s w = some w := by
  cases ht : t.valid with
  | false => simp only [inorderTraversalV2, ht, Bool.false_eq_true, not_false_eq_true, if_true,
      Option.pure_def]
  | true =>
      obtain ⟨σ0, hconstruct, r0⟩ := construct_spec build initial_holds .stack
      obtain ⟨σ1, us, r1, hgoes⟩ := inorder_goes build truthy t (F := nodes t + 1) r0
        (update_self ..) (by rw [List.length_nil]; omega) (Nat.lt_succ_self _)
      rw [update_idem] at r1
      obtain ⟨σ2, hdestroy, -⟩ := destroy_spec build r1 (update_self ..)
      have hloop : Fuel.loop (inorderBody build truthy (nodes t + 1)) (nodes t + 1) (σ0, t) =
          some σ1 := by
        rcases hgoes with ⟨rfl, hgoes⟩ | hloop
        · refine (hgoes 1).trans (Fuel.loop_leave ?_ 0)
          simp only [inorderBody, isEmpty_spec r1 (update_self ..), List.isEmpty_nil, valid,
            Bool.false_eq_true, not_true_eq_false, or_self, not_false_eq_true, if_true,
            Option.bind_eq_bind, Option.bind_some, Option.pure_def]
        · exact Fuel.loop_mono hloop 1
      simp only [inorderTraversalV2, ht, hconstruct, hloop, hdestroy, not_true_eq_false, if_false,
        Option.bind_eq_bind, Option.bind_some, Option.pure_def]

/-- Whatever happens, the functor is not called. -/
theorem inorderTraversalV2_silent {visitor : Visitor T S W} {fuel : Nat} {t : Tree T} {s : S}
    {w w' : W} (hrun : inorderTraversalV2 build truthy visitor fuel t s w = some w') :
    w' = w := by
  simp only [inorderTraversalV2, Option.bind_eq_bind, Option.pure_def] at hrun
  split at hrun
  · exact (Option.some.inj hrun).symm
  · obtain ⟨σ0, -, hrun⟩ := Option.bind_eq_some_iff.mp hrun
    obtain ⟨σ1, -, hrun⟩ := Option.bind_eq_some_iff.mp hrun
    obtain ⟨σ2, -, hrun⟩ := Option.bind_eq_some_iff.mp hrun
    exact (Option.some.inj hrun).symm

/-- **The in-order loop is silent.** With a visitor that never asks to stop,
`inorderTraversalV2` makes the calls of `inorderTraversal` exactly if there are none to be
made: it never makes any, and it ends wherever its stack can hold the nodes above a branch. -/
theorem inorderTraversalV2_iff {visitor : Visitor T S W} (hgo : NeverStops visitor) (t : Tree T)
    (s : S) (w : W) :
    ((∃ fuel w', inorderTraversalV2 build truthy (recorded visitor) fuel t s (w, []) = some w' ∧
        w'.2 = (inorderTraversal (recorded visitor) t s (w, [])).2) ↔ t.valid = false) ∧
    (ancestors t ≤ 2 ^ 31 → ∃ fuel,
      inorderTraversalV2 build truthy (recorded visitor) fuel t s (w, []) = some (w, [])) := by
  refine ⟨?_, fun hroom => ⟨_, inorderTraversalV2_ends build truthy _ t hroom s _⟩⟩
  constructor
  · rintro ⟨fuel, w', hrun, hcalls⟩
    rw [inorderTraversalV2_silent build truthy hrun, inorderTraversal_calls hgo] at hcalls
    cases t with
    | invalid => rfl
    | node left data right =>
        rw [inorder, List.nil_append, List.map_append, List.map_cons] at hcalls
        exact absurd hcalls.symm (List.append_ne_nil_of_right_ne_nil _ (List.cons_ne_nil _ _))
  · intro hvalid
    cases t with
    | invalid => exact ⟨0, (w, []), rfl, rfl⟩
    | node left data right => cases hvalid

end Agreement

theorem inorderTraversalV2_iff_small :
    ∃ fuel, inorderTraversalV2 .debug (fun n => n == 7) (recorded passive) fuel small () ((), []) =
      some ((), []) :=
  (inorderTraversalV2_iff .debug (fun n => n == 7) (show NeverStops passive from fun _ _ _ => rfl)
    small () ()).2 (by decide)

/-- A tree of three nodes is not visited. -/
theorem small_unvisited :
    ¬ ∃ fuel w', inorderTraversalV2 .debug (fun n => n == 7) (recorded passive) fuel small ()
        ((), []) = some w' ∧
      w'.2 = (inorderTraversal (recorded passive) small () ((), [])).2 := by
  rintro ⟨fuel, w', hrun, hcalls⟩
  rw [inorderTraversalV2_silent _ _ hrun] at hcalls
  revert hcalls
  decide

end LearnSpace.DataStructure.Tree
