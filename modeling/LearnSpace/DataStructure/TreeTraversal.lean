import LearnSpace.DataStructure.StackSequence
import LearnSpace.DataStructure.Tree

/-!
# Traversals with and without a stack

A visitor that never asks to stop sees the data of a tree in preorder or in postorder,
whether recursion or a stack keeps what is still to be done. The loops are described by
what they do with one entry on top of a stack: after as many iterations as there are nodes
under it, the entry is gone and its nodes are visited, or collected, in order.

The position on top of a stack is an `int`, which limits how many entries there can be.
That limit is met exactly (`pending`, `nodes`); in a tree beyond it the loops are
undefined for every fuel.
-/

namespace LearnSpace.DataStructure.Tree

open Keel Function Stack.Pool

variable {T S W : Type}

/-! ## Orders -/

/-- The data in preorder. -/
def preorder : Tree T → List T
  | .invalid => []
  | .node left data right => data :: (preorder left ++ preorder right)

/-- The data in postorder. -/
def postorder : Tree T → List T
  | .invalid => []
  | .node left data right => postorder left ++ postorder right ++ [data]

/-- How many nodes are valid. -/
def nodes : Tree T → Nat
  | .invalid => 0
  | .node left _ right => nodes left + nodes right + 1

/-- What is pushed for a node: itself if it is valid. -/
def entry : Tree T → List (Tree T)
  | .invalid => []
  | .node left data right => [.node left data right]

/-- How far the stack of `preorderTraversalV2` grows for a node and what is below it. -/
def pending : Tree T → Nat
  | .invalid => 0
  | .node left _ right => max 1 (max ((entry right).length + pending left) (pending right))

theorem length_entry_le_pending (t : Tree T) : (entry t).length ≤ pending t := by
  cases t with
  | invalid => exact Nat.le_refl _
  | node left data right => exact Nat.le_max_left ..

theorem length_entry_le_one (t : Tree T) : (entry t).length ≤ 1 := by
  cases t with
  | invalid => exact Nat.zero_le _
  | node left data right => exact Nat.le_refl _

theorem entry_valid (t : Tree T) : ∀ u ∈ entry t, u.valid = true := by
  cases t with
  | invalid => exact nofun
  | node left data right =>
      intro u hu
      rw [List.mem_singleton.mp hu]
      rfl

theorem length_entry_le_nodes (t : Tree T) : (entry t).length ≤ nodes t := by
  cases t with
  | invalid => exact Nat.le_refl _
  | node left data right => exact Nat.succ_le_succ (Nat.zero_le _)

/-! ## The visitor -/

theorem neverStops_recorded {visitor : Visitor T S W} (hgo : NeverStops visitor) :
    NeverStops (recorded visitor) :=
  fun s w data => hgo s w.1 data

/-- The states of a functor and its world after it was called for each of `ds`. -/
def visited (visitor : Visitor T S W) (q : S × W) (ds : List T) : S × W :=
  ds.foldl (fun q data => (visitor q.1 q.2 data).2) q

/-- A record of calls that did not ask to stop. -/
theorem visited_recorded {visitor : Visitor T S W} (hgo : NeverStops visitor) (ds : List T) :
    ∀ (s : S) (w : W) (calls : List (T × Bool)),
      (visited (recorded visitor) (s, w, calls) ds).2.2 = calls ++ ds.map (·, false) := by
  induction ds with
  | nil =>
      intro s w calls
      exact (List.append_nil calls).symm
  | cons d ds ih =>
      intro s w calls
      show (visited (recorded visitor) (recorded visitor s (w, calls) d).2 ds).2.2 = _
      rw [recorded, ih, hgo s w d, List.append_assoc]
      rfl

/-- Recursion visits a tree in preorder. -/
theorem preorderTraversal_calls {visitor : Visitor T S W} (hgo : NeverStops visitor)
    (t : Tree T) : ∀ (s : S) (w : W × List (T × Bool)),
      (preorderTraversal (recorded visitor) t s w).2 = w.2 ++ (preorder t).map (·, false) := by
  induction t with
  | invalid =>
      intro s w
      exact (List.append_nil w.2).symm
  | node left data right ihl ihr =>
      intro s w
      have hcall := neverStops_recorded hgo s w data
      simp only [preorderTraversal, hcall, Bool.false_eq_true, if_false, ihl, ihr, preorder]
      simp only [recorded, hgo s w.1 data, List.map_cons, List.map_append, List.append_assoc,
        List.cons_append, List.nil_append]

/-- Recursion visits a tree in postorder. -/
theorem postorderTraversal_calls {visitor : Visitor T S W} (hgo : NeverStops visitor)
    (t : Tree T) : ∀ (s : S) (w : W × List (T × Bool)),
      (postorderTraversal (recorded visitor) t s w).2 = w.2 ++ (postorder t).map (·, false) := by
  induction t with
  | invalid =>
      intro s w
      exact (List.append_nil w.2).symm
  | node left data right ihl ihr =>
      intro s w
      have hcall (u : W × List (T × Bool)) :
          (recorded visitor s u data).2.2.2 = u.2 ++ [(data, false)] := by
        rw [recorded, hgo s u.1 data]
      simp only [postorderTraversal, hcall, ihl, ihr, postorder, List.map_append, List.map_cons,
        List.map_nil, List.append_assoc]

/-! ## Statements on the local stacks -/

section Locals

variable (build : Build) {σ : Locals T} {tss : Local → Option (List (Tree T))} {x : Local}
  {ts : List (Tree T)}

theorem construct_spec (r : Holds σ tss) (x : Local) :
    ∃ σ', Locals.act build σ (.construct x) = some σ' ∧
      Holds σ' (update tss x (some [])) := by
  obtain ⟨σ', huse, r'⟩ := use_construct build r x
  refine ⟨σ', ?_, r'⟩
  rw [Locals.act, huse]
  rfl

theorem destroy_spec (r : Holds σ tss) (hx : tss x = some ts) :
    ∃ σ', Locals.act build σ (.destroy x) = some σ' ∧ Holds σ' (update tss x none) := by
  obtain ⟨s, hs, -⟩ := r.stack_some hx
  obtain ⟨σ', huse, r'⟩ := use_destroy build r hs
  refine ⟨σ', ?_, r'⟩
  rw [Locals.act, huse]
  rfl

theorem isEmpty_spec (r : Holds σ tss) (hx : tss x = some ts) :
    Locals.isEmpty σ x = some ts.isEmpty := by
  obtain ⟨s, hs, rep⟩ := r.stack_some hx
  simp only [Locals.isEmpty, hs, Stack.isEmpty_spec rep, Option.bind_eq_bind, Option.bind_some,
    Option.pure_def]

theorem isEmpty_top {t : Tree T} (r : Holds σ tss) (hx : tss x = some (ts ++ [t])) :
    Locals.isEmpty σ x = some false := by
  rw [isEmpty_spec r hx, List.isEmpty_eq_false_iff.mpr (List.concat_ne_nil t ts)]

theorem push_spec (r : Holds σ tss) (hx : tss x = some ts) (hroom : ts.length < 2 ^ 31)
    (t : Tree T) :
    ∃ σ', Locals.push build σ x t = some σ' ∧ Holds σ' (update tss x (some (ts ++ [t]))) := by
  obtain ⟨s, hs, rep⟩ := r.stack_some hx
  have hfits : s.Fits (.push t) := by
    show s.vector.size < 0x80000000
    rw [UInt32.lt_iff_toNat_lt, rep.vector.counted]
    exact hroom
  obtain ⟨σ', huse, r'⟩ := use_call build r hs hfits
  simp only [Stack.lists, hx] at huse r'
  refine ⟨σ', ?_, r'⟩
  rw [Locals.push, Locals.act, huse]
  rfl

theorem push_none (r : Holds σ tss) (hx : tss x = some ts) (hfull : 2 ^ 31 ≤ ts.length)
    (t : Tree T) : Locals.push build σ x t = none := by
  obtain ⟨s, hs, rep⟩ := r.stack_some hx
  have hcall : s.call build σ.heap (.push t) = none := Stack.push_none build rep hfull t
  simp only [Locals.push, Locals.act, Stack.Pool.use, hs, hcall, Option.bind_eq_bind,
    Option.bind_some, Option.bind_none, Option.map_none]

theorem pop_spec {t : Tree T} (r : Holds σ tss) (hx : tss x = some (ts ++ [t])) :
    ∃ σ', Locals.pop build σ x = some (σ', t) ∧ Holds σ' (update tss x (some ts)) := by
  obtain ⟨s, hs, rep⟩ := r.stack_some hx
  obtain ⟨σ', huse, r'⟩ := use_call build (c := .pop) r hs trivial
  simp only [Stack.lists, hx, Stack.lifo, List.getLast?_concat, List.dropLast_concat] at huse r'
  refine ⟨σ', ?_, r'⟩
  simp only [Locals.pop, huse, Option.elim_some, Option.bind_eq_bind, Option.bind_some,
    Option.pure_def]

/-- A node is pushed if it is valid. -/
theorem pushEntry_spec (r : Holds σ tss) (hx : tss x = some ts) (t : Tree T)
    (hroom : ts.length + (entry t).length ≤ 2 ^ 31) :
    ∃ σ', (if t.valid then Locals.push build σ x t else some σ) = some σ' ∧
      Holds σ' (update tss x (some (ts ++ entry t))) := by
  cases t with
  | invalid =>
      refine ⟨σ, rfl, ?_⟩
      rw [entry, List.append_nil, ← hx, update_eq_self]
      exact r
  | node left data right => exact push_spec build r hx (Nat.lt_of_succ_le hroom) _

theorem pushEntry_none (r : Holds σ tss) (hx : tss x = some ts) (t : Tree T)
    (hfull : 2 ^ 31 < ts.length + (entry t).length) (hfits : ts.length ≤ 2 ^ 31) :
    (if t.valid then Locals.push build σ x t else some σ) = none := by
  cases t with
  | invalid => exact absurd hfull (Nat.not_lt_of_le hfits)
  | node left data right => exact push_none build r hx (Nat.le_of_lt_succ hfull) _

end Locals

/-! ## Preorder with a stack -/

section Preorder

variable (build : Build) {visitor : Visitor T S W}

/-- An iteration with a node on top: the node is visited and its children take its place. -/
theorem preorderBody_node (hgo : NeverStops visitor) {σ : Locals T}
    {tss : Local → Option (List (Tree T))} {ts : List (Tree T)} {left right : Tree T} {data : T}
    (r : Holds σ tss) (hx : tss .stack = some (ts ++ [.node left data right]))
    (hroom : ts.length + (entry right).length + (entry left).length ≤ 2 ^ 31) (s : S) (w : W) :
    ∃ σ', preorderBody build visitor (σ, s, w) = some (.inl (σ', (visitor s w data).2)) ∧
      Holds σ' (update tss .stack (some (ts ++ entry right ++ entry left))) := by
  obtain ⟨σ1, hpop, r1⟩ := pop_spec build r hx
  obtain ⟨σ2, hright, r2⟩ := pushEntry_spec build r1 (update_self ..) right (by omega)
  obtain ⟨σ3, hleft, r3⟩ := pushEntry_spec build r2 (update_self ..) left (by
    rw [List.length_append]
    exact hroom)
  rw [update_idem, update_idem] at r3
  refine ⟨σ3, ?_, r3⟩
  simp only [preorderBody, isEmpty_top r hx, hpop, hgo s w data, hright, hleft,
    Option.bind_eq_bind, Option.bind_some, Option.pure_def, Bool.false_eq_true, if_false]

/-- The entry on top goes, and everything below its node is visited in preorder. -/
theorem preorder_goes (hgo : NeverStops visitor) (t : Tree T) :
    ∀ {σ : Locals T} {tss : Local → Option (List (Tree T))} {ts : List (Tree T)},
      Holds σ tss → tss .stack = some (ts ++ entry t) → ts.length + pending t ≤ 2 ^ 31 →
      ∀ q : S × W, ∃ σ', Holds σ' (update tss .stack (some ts)) ∧
        Fuel.Goes (preorderBody build visitor) (nodes t) (σ, q)
          (σ', visited visitor q (preorder t)) := by
  induction t with
  | invalid =>
      intro σ tss ts r hx _ q
      rw [entry, List.append_nil] at hx
      refine ⟨σ, ?_, .refl _⟩
      rw [← hx, update_eq_self]
      exact r
  | node left data right ihl ihr =>
      intro σ tss ts r hx hroom q
      have hleft := length_entry_le_pending left
      have hright := length_entry_le_pending right
      rw [pending] at hroom
      obtain ⟨σ1, hbody, r1⟩ := preorderBody_node build hgo r hx (by omega) q.1 q.2
      obtain ⟨σ2, r2, hgoes2⟩ := ihl r1 (update_self ..) (by rw [List.length_append]; omega)
        (visitor q.1 q.2 data).2
      rw [update_idem] at r2
      obtain ⟨σ3, r3, hgoes3⟩ := ihr r2 (update_self ..) (by omega)
        (visited visitor (visitor q.1 q.2 data).2 (preorder left))
      rw [update_idem] at r3
      refine ⟨σ3, r3, ?_⟩
      have hgoes := (Fuel.Goes.next hbody).trans (hgoes2.trans hgoes3)
      rw [Nat.add_comm] at hgoes
      rw [preorder, visited, List.foldl_cons, List.foldl_append]
      exact hgoes

/-- An entry that leaves too much to be done makes the loop undefined. -/
theorem preorder_undefined (hgo : NeverStops visitor) (t : Tree T) :
    ∀ {σ : Locals T} {tss : Local → Option (List (Tree T))} {ts : List (Tree T)},
      Holds σ tss → tss .stack = some (ts ++ entry t) → 2 ^ 31 < ts.length + pending t →
      ∀ q : S × W, Fuel.Undefined (preorderBody build visitor) (σ, q) := by
  induction t with
  | invalid =>
      intro σ tss ts r hx hover q
      obtain ⟨s, -, rep⟩ := r.stack_some hx
      have hlength := rep.length_le
      rw [List.length_append] at hlength
      rw [pending] at hover
      omega
  | node left data right ihl ihr =>
      intro σ tss ts r hx hover q
      obtain ⟨s, -, rep⟩ := r.stack_some hx
      have hlength := rep.length_le
      rw [entry, List.length_append, List.length_singleton] at hlength
      have hright := length_entry_le_one right
      by_cases hroom : ts.length + (entry right).length + (entry left).length ≤ 2 ^ 31
      · obtain ⟨σ1, hbody, r1⟩ := preorderBody_node build hgo r hx hroom q.1 q.2
        refine .of_goes (.next hbody) ?_
        by_cases hleft : 2 ^ 31 < (ts ++ entry right).length + pending left
        · exact ihl r1 (update_self ..) hleft _
        · -- the left child goes well, so it is the right one that does not
          obtain ⟨σ2, r2, hgoes⟩ := preorder_goes build hgo left r1 (update_self ..)
            (Nat.le_of_not_lt hleft) (visitor q.1 q.2 data).2
          refine .of_goes hgoes (ihr r2 (update_self ..) ?_ _)
          rw [List.length_append] at hleft
          rw [pending] at hover
          omega
      · -- already the left child has no place on the stack
        refine .fault ?_
        obtain ⟨σ1, hpop, r1⟩ := pop_spec build r hx
        obtain ⟨σ2, hpush, r2⟩ :=
          pushEntry_spec build r1 (update_self ..) right (by omega)
        have hnone := pushEntry_none build r2 (update_self ..) left (by
          rw [List.length_append]
          omega) (by
          rw [List.length_append]
          omega)
        simp only [preorderBody, isEmpty_top r hx, hpop, hgo q.1 q.2 data, hpush, hnone,
          Option.bind_eq_bind, Option.bind_some, Option.bind_none, Option.pure_def,
          Bool.false_eq_true, if_false]

/-- The one entry on the stack when the loop begins. -/
theorem start_spec (x : Local) (t : Tree T) (ht : t.valid) {σ : Locals T}
    {tss : Local → Option (List (Tree T))} (r : Holds σ tss) (hx : tss x = some []) :
    ∃ σ', Locals.push build σ x t = some σ' ∧ Holds σ' (update tss x (some ([] ++ entry t))) := by
  cases t with
  | invalid => cases ht
  | node left data right => exact push_spec build r hx (Nat.two_pow_pos 31) _

theorem initial_holds : Holds (Stack.Pool.initial : Locals T) (fun _ => none) :=
  (refines_lists (ι := Local) (T := Tree T) .release).start

/-- `preorderTraversalV2` visits a tree in preorder, if its stack can hold what is pending. -/
theorem preorderTraversalV2_spec (hgo : NeverStops visitor) (t : Tree T)
    (hroom : pending t ≤ 2 ^ 31) (s : S) (w : W) :
    preorderTraversalV2 build visitor (nodes t + 1) t s w =
      some (visited visitor (s, w) (preorder t)).2 := by
  cases ht : t.valid with
  | false =>
      cases t with
      | invalid => rfl
      | node left data right => cases ht
  | true =>
      obtain ⟨σ0, hconstruct, r0⟩ := construct_spec build initial_holds .stack
      obtain ⟨σ1, hpush, r1⟩ := start_spec build .stack t ht r0 (update_self ..)
      obtain ⟨σ2, r2, hgoes⟩ := preorder_goes build hgo t r1 (update_self ..)
        (by rw [List.length_nil]; omega) (s, w)
      have hend : preorderBody build visitor (σ2, visited visitor (s, w) (preorder t)) =
          some (.inr (σ2, (visited visitor (s, w) (preorder t)).2)) := by
        simp only [preorderBody, isEmpty_spec r2 (update_self ..), List.isEmpty_nil,
          Option.bind_eq_bind, Option.bind_some, if_true, Option.pure_def]
      obtain ⟨σ3, hdestroy, -⟩ := destroy_spec build r2 (update_self ..)
      have hloop := (hgoes 1).trans (Fuel.loop_leave hend 0)
      simp only [preorderTraversalV2, ht, hconstruct, hpush, hloop, hdestroy, not_true_eq_false,
        if_false, Option.bind_eq_bind, Option.bind_some, Option.pure_def]

theorem preorderTraversalV2_none (hgo : NeverStops visitor) (t : Tree T)
    (hover : 2 ^ 31 < pending t) (s : S) (w : W) (fuel : Nat) :
    preorderTraversalV2 build visitor fuel t s w = none := by
  cases ht : t.valid with
  | false =>
      cases t with
      | invalid => cases hover
      | node left data right => cases ht
  | true =>
      obtain ⟨σ0, hconstruct, r0⟩ := construct_spec build initial_holds .stack
      obtain ⟨σ1, hpush, r1⟩ := start_spec build .stack t ht r0 (update_self ..)
      have hloop := preorder_undefined build hgo t r1 (update_self ..)
        (by rw [List.length_nil]; omega) (s, w) fuel
      simp only [preorderTraversalV2, ht, hconstruct, hpush, hloop, not_true_eq_false, if_false,
        Option.bind_eq_bind, Option.bind_some, Option.bind_none]

end Preorder

/-! ## Postorder with two stacks -/

section Postorder

variable (build : Build) {visitor : Visitor T S W}

/-- The nodes that `stack2` gets, the last one on top. -/
def collected : Tree T → List (Tree T)
  | .invalid => []
  | .node left data right => .node left data right :: (collected right ++ collected left)

/-- The datum of a node. -/
def label : Tree T → List T
  | .invalid => []
  | .node _ data _ => [data]

theorem length_collected (t : Tree T) : (collected t).length = nodes t := by
  induction t with
  | invalid => rfl
  | node left data right ihl ihr =>
      rw [collected, nodes, List.length_cons, List.length_append, ihl, ihr,
        Nat.add_comm (nodes right)]

theorem valid_of_mem_collected (t : Tree T) : ∀ u ∈ collected t, u.valid := by
  induction t with
  | invalid => exact fun u hu => absurd hu List.not_mem_nil
  | node left data right ihl ihr =>
      intro u hu
      rcases List.mem_cons.mp hu with rfl | hu
      · rfl
      · exact (List.mem_append.mp hu).elim (ihr u) (ihl u)

/-- From the top on, the nodes of `stack2` are in postorder. -/
theorem collected_labels (t : Tree T) : (collected t).reverse.flatMap label = postorder t := by
  induction t with
  | invalid => rfl
  | node left data right ihl ihr =>
      rw [collected, List.reverse_cons, List.reverse_append, List.flatMap_append,
        List.flatMap_append, ihl, ihr, postorder]
      rfl

/-- The two stacks hold `ts` and `us`. -/
def HoldBoth (σ : Locals T) (ts us : List (Tree T)) : Prop :=
  ∃ tss, Holds σ tss ∧ tss .stack1 = some ts ∧ tss .stack2 = some us

namespace HoldBoth

variable {σ σ' : Locals T} {ts us : List (Tree T)} {t : Tree T}

theorem of_update1 {tss : Local → Option (List (Tree T))}
    (r : Holds σ (update tss .stack1 (some ts))) (hu : tss .stack2 = some us) :
    HoldBoth σ ts us :=
  ⟨_, r, update_self .., (update_of_ne (by decide) _ _).trans hu⟩

theorem of_update2 {tss : Local → Option (List (Tree T))}
    (r : Holds σ (update tss .stack2 (some us))) (ht : tss .stack1 = some ts) :
    HoldBoth σ ts us :=
  ⟨_, r, (update_of_ne (by decide) _ _).trans ht, update_self ..⟩

theorem length_le (r : HoldBoth σ ts us) : ts.length ≤ 2 ^ 31 ∧ us.length ≤ 2 ^ 31 := by
  obtain ⟨tss, r, ht, hu⟩ := r
  obtain ⟨s, -, rep⟩ := r.stack_some ht
  obtain ⟨s', -, rep'⟩ := r.stack_some hu
  exact ⟨rep.length_le, rep'.length_le⟩

theorem isEmpty1 (r : HoldBoth σ (ts ++ [t]) us) : Locals.isEmpty σ .stack1 = some false := by
  obtain ⟨tss, r, ht, -⟩ := r
  exact isEmpty_top r ht

theorem pop1 (r : HoldBoth σ (ts ++ [t]) us) :
    ∃ σ', Locals.pop build σ .stack1 = some (σ', t) ∧ HoldBoth σ' ts us := by
  obtain ⟨tss, r, ht, hu⟩ := r
  obtain ⟨σ', hpop, r'⟩ := pop_spec build r ht
  exact ⟨σ', hpop, .of_update1 r' hu⟩

theorem push2 (r : HoldBoth σ ts us) (hroom : us.length < 2 ^ 31) (t : Tree T) :
    ∃ σ', Locals.push build σ .stack2 t = some σ' ∧ HoldBoth σ' ts (us ++ [t]) := by
  obtain ⟨tss, r, ht, hu⟩ := r
  obtain ⟨σ', hpush, r'⟩ := push_spec build r hu hroom t
  exact ⟨σ', hpush, .of_update2 r' ht⟩

theorem push2_none (r : HoldBoth σ ts us) (hfull : 2 ^ 31 ≤ us.length) (t : Tree T) :
    Locals.push build σ .stack2 t = none := by
  obtain ⟨tss, r, -, hu⟩ := r
  exact push_none build r hu hfull t

theorem pushEntry1 (r : HoldBoth σ ts us) (t : Tree T)
    (hroom : ts.length + (entry t).length ≤ 2 ^ 31) :
    ∃ σ', (if t.valid then Locals.push build σ .stack1 t else some σ) = some σ' ∧
      HoldBoth σ' (ts ++ entry t) us := by
  obtain ⟨tss, r, ht, hu⟩ := r
  obtain ⟨σ', hpush, r'⟩ := pushEntry_spec build r ht t hroom
  exact ⟨σ', hpush, .of_update1 r' hu⟩

theorem pushEntry1_none (r : HoldBoth σ ts us) (t : Tree T)
    (hfull : 2 ^ 31 < ts.length + (entry t).length) :
    (if t.valid then Locals.push build σ .stack1 t else some σ) = none := by
  have hfits := r.length_le.1
  obtain ⟨tss, r, ht, -⟩ := r
  exact pushEntry_none build r ht t hfull hfits

end HoldBoth

section Collect

variable {left right : Tree T} {data : T}

/-- An iteration with a node on top of `stack1`: the node moves to `stack2`. -/
theorem collectBody_node {σ : Locals T} {ts us : List (Tree T)}
    (r : HoldBoth σ (ts ++ [.node left data right]) us) (hroom2 : us.length < 2 ^ 31)
    (hroom1 : ts.length + (entry left).length + (entry right).length ≤ 2 ^ 31) :
    ∃ σ', collectBody build σ = some (.inl σ') ∧
      HoldBoth σ' (ts ++ entry left ++ entry right) (us ++ [.node left data right]) := by
  obtain ⟨σ1, hpop, r1⟩ := r.pop1 build
  obtain ⟨σ2, hpush, r2⟩ := r1.push2 build hroom2 (.node left data right)
  obtain ⟨σ3, hleft, r3⟩ := r2.pushEntry1 build left (by omega)
  obtain ⟨σ4, hright, r4⟩ := r3.pushEntry1 build right (by
    rw [List.length_append]
    exact hroom1)
  refine ⟨σ4, ?_, r4⟩
  simp only [collectBody, r.isEmpty1, hpop, hpush, hleft, hright, Option.bind_eq_bind,
    Option.bind_some, Option.pure_def, Bool.false_eq_true, if_false]

end Collect

/-- The entry on top of `stack1` goes, and everything below its node is collected. What is
below the entry is no more than what was collected before it. -/
theorem collect_goes (t : Tree T) :
    ∀ {σ : Locals T} {ts us : List (Tree T)}, HoldBoth σ (ts ++ entry t) us →
      ts.length ≤ us.length → us.length + nodes t ≤ 2 ^ 31 →
      ∃ σ', HoldBoth σ' ts (us ++ collected t) ∧
        Fuel.Goes (collectBody build) (nodes t) σ σ' := by
  induction t with
  | invalid =>
      intro σ ts us r _ _
      rw [entry, List.append_nil] at r
      refine ⟨σ, ?_, .refl σ⟩
      rw [collected, List.append_nil]
      exact r
  | node left data right ihl ihr =>
      intro σ ts us r hbelow hroom
      have hleft := length_entry_le_nodes left
      have hright := length_entry_le_nodes right
      have hleft' := length_entry_le_one left
      rw [nodes] at hroom
      obtain ⟨σ1, hbody, r1⟩ := collectBody_node build r (by omega) (by omega)
      -- the right child was pushed last
      obtain ⟨σ2, r2, hgoes2⟩ := ihr r1
        (by simp only [List.length_append, List.length_singleton]; omega)
        (by rw [List.length_append, List.length_singleton]; omega)
      have hlength := length_collected right
      obtain ⟨σ3, r3, hgoes3⟩ := ihl r2
        (by simp only [List.length_append, List.length_singleton]; omega)
        (by simp only [List.length_append, List.length_singleton]; omega)
      refine ⟨σ3, ?_, ?_⟩
      · rw [List.append_assoc, List.append_assoc] at r3
        exact r3
      · have hgoes := (Fuel.Goes.next hbody).trans (hgoes2.trans hgoes3)
        rw [Nat.add_comm, Nat.add_comm (nodes right)] at hgoes
        exact hgoes

/-- More nodes than `stack2` can hold make the loop undefined. -/
theorem collect_undefined (t : Tree T) :
    ∀ {σ : Locals T} {ts us : List (Tree T)}, HoldBoth σ (ts ++ entry t) us →
      ts.length ≤ us.length → 2 ^ 31 < us.length + nodes t →
      Fuel.Undefined (collectBody build) σ := by
  induction t with
  | invalid =>
      intro σ ts us r _ hover
      exact absurd r.length_le.2 (Nat.not_le_of_lt hover)
  | node left data right ihl ihr =>
      intro σ ts us r hbelow hover
      have hleft := length_entry_le_one left
      obtain ⟨σ1, hpop, r1⟩ := HoldBoth.pop1 build r
      by_cases hroom2 : us.length < 2 ^ 31
      · by_cases hroom1 : ts.length + (entry left).length + (entry right).length ≤ 2 ^ 31
        · obtain ⟨σ2, hbody, r2⟩ := collectBody_node build r hroom2 hroom1
          refine .of_goes (.next hbody) ?_
          have hbelow' : (ts ++ entry left).length ≤
              (us ++ [Tree.node left data right]).length := by
            simp only [List.length_append, List.length_singleton]
            omega
          by_cases hright : 2 ^ 31 < (us ++ [Tree.node left data right]).length + nodes right
          · exact ihr r2 hbelow' hright
          · -- the right child goes well, so it is the left one that does not
            obtain ⟨σ3, r3, hgoes⟩ := collect_goes build right r2 hbelow'
              (Nat.le_of_not_lt hright)
            have hlength := length_collected right
            refine .of_goes hgoes (ihl r3 ?_ ?_)
            · simp only [List.length_append, List.length_singleton]
              omega
            · rw [nodes] at hover
              simp only [List.length_append, List.length_singleton]
              omega
        · -- `stack1` has no place for the right child
          refine .fault ?_
          obtain ⟨σ2, hpush, r2⟩ := r1.push2 build hroom2 (.node left data right)
          obtain ⟨σ3, hentry, r3⟩ := r2.pushEntry1 build left (by omega)
          have hnone := r3.pushEntry1_none build right (by
            rw [List.length_append]
            omega)
          simp only [collectBody, HoldBoth.isEmpty1 r, hpop, hpush, hentry, hnone,
            Option.bind_eq_bind, Option.bind_some, Option.bind_none, Option.pure_def,
            Bool.false_eq_true, if_false]
      · refine .fault ?_
        have hnone := r1.push2_none build (Nat.le_of_not_lt hroom2)
          (.node left data right)
        simp only [collectBody, HoldBoth.isEmpty1 r, hpop, hnone, Option.bind_eq_bind,
          Option.bind_some, Option.bind_none, Option.pure_def, Bool.false_eq_true, if_false]

/-- The second loop visits what `stack2` holds, from the top on. -/
theorem visit_goes (hgo : NeverStops visitor) {us : List (Tree T)} :
    ∀ {σ : Locals T} {tss : Local → Option (List (Tree T))}, Holds σ tss →
      tss .stack2 = some us → (∀ u ∈ us, u.valid) → ∀ q : S × W,
      ∃ σ', Holds σ' (update tss .stack2 (some [])) ∧
        Fuel.Goes (visitBody build visitor) us.length (σ, q)
          (σ', visited visitor q (us.reverse.flatMap label)) := by
  induction us using List.reverseRecOn with
  | nil =>
      intro σ tss r hx _ q
      refine ⟨σ, ?_, .refl _⟩
      rw [← hx, update_eq_self]
      exact r
  | append_singleton us u ih =>
      intro σ tss r hx hvalid q
      cases u with
      | invalid => exact absurd (hvalid .invalid (List.mem_append_right _ List.mem_cons_self)) nofun
      | node left data right =>
          obtain ⟨σ1, hpop, r1⟩ := pop_spec build r hx
          have hbody : visitBody build visitor (σ, q) =
              some (.inl (σ1, (visitor q.1 q.2 data).2)) := by
            simp only [visitBody, isEmpty_top r hx, hpop, hgo q.1 q.2 data, Option.bind_eq_bind,
              Option.bind_some, Option.pure_def, Bool.false_eq_true, if_false]
          obtain ⟨σ2, r2, hgoes⟩ := ih r1 (update_self ..)
            (fun u hu => hvalid u (List.mem_append_left _ hu)) (visitor q.1 q.2 data).2
          rw [update_idem] at r2
          refine ⟨σ2, r2, ?_⟩
          have hall := (Fuel.Goes.next hbody).trans hgoes
          rw [List.length_append, List.length_singleton, Nat.add_comm, List.reverse_append,
            List.flatMap_append, visited, List.foldl_append]
          exact hall

/-- The local stacks when the loops begin. -/
theorem start2_spec (build : Build) (t : Tree T) (ht : t.valid) :
    ∃ σ0 σ1 σ2, Locals.act build (Stack.Pool.initial : Locals T) (.construct .stack1) = some σ0 ∧
      Locals.act build σ0 (.construct .stack2) = some σ1 ∧
      Locals.push build σ1 .stack1 t = some σ2 ∧ HoldBoth σ2 ([] ++ entry t) [] := by
  obtain ⟨σ0, h0, r0⟩ := construct_spec build initial_holds .stack1
  obtain ⟨σ1, h1, r1⟩ := construct_spec build r0 .stack2
  obtain ⟨σ2, h2, r2⟩ := start_spec build .stack1 t ht r1
    ((update_of_ne (by decide) _ _).trans (update_self ..))
  exact ⟨σ0, σ1, σ2, h0, h1, h2, .of_update1 r2 (update_self ..)⟩

/-- `postorderTraversalV2` visits a tree in postorder, if `stack2` can hold its nodes. -/
theorem postorderTraversalV2_spec (hgo : NeverStops visitor) (t : Tree T)
    (hroom : nodes t ≤ 2 ^ 31) (s : S) (w : W) :
    postorderTraversalV2 build visitor (nodes t + 1) t s w =
      some (visited visitor (s, w) (postorder t)).2 := by
  cases ht : t.valid with
  | false =>
      cases t with
      | invalid => rfl
      | node left data right => cases ht
  | true =>
      obtain ⟨σ0, σ1, σ2, h0, h1, h2, r2⟩ := start2_spec build t ht
      obtain ⟨σ3, r3, hgoes3⟩ := collect_goes build t r2 (Nat.le_refl _)
        (by rw [List.length_nil]; omega)
      obtain ⟨tss, r3, hts, hus⟩ := r3
      rw [List.nil_append] at hus
      obtain ⟨σ4, r4, hgoes4⟩ := visit_goes build hgo r3 hus
        (valid_of_mem_collected t) (s, w)
      rw [collected_labels, length_collected] at hgoes4
      have hts4 : update tss .stack2 (some []) .stack1 = some [] :=
        (update_of_ne (by decide) _ _).trans hts
      obtain ⟨σ5, h5, r5⟩ := destroy_spec build r4 (update_self ..)
      obtain ⟨σ6, h6, -⟩ := destroy_spec build r5
        ((update_of_ne (by decide) _ _).trans hts4)
      -- each loop leaves with a stack that is empty
      have hend3 : collectBody build σ3 = some (.inr σ3) := by
        simp only [collectBody, isEmpty_spec r3 hts, List.isEmpty_nil, Option.bind_eq_bind,
          Option.bind_some, if_true, Option.pure_def]
      have hend4 : visitBody build visitor (σ4, visited visitor (s, w) (postorder t)) =
          some (.inr (σ4, (visited visitor (s, w) (postorder t)).2)) := by
        simp only [visitBody, isEmpty_spec r4 (update_self ..), List.isEmpty_nil,
          Option.bind_eq_bind, Option.bind_some, if_true, Option.pure_def]
      have hloop3 := (hgoes3 1).trans (Fuel.loop_leave hend3 0)
      have hloop4 := (hgoes4 1).trans (Fuel.loop_leave hend4 0)
      simp only [postorderTraversalV2, ht, h0, h1, h2, hloop3, hloop4, h5, h6,
        not_true_eq_false, if_false, Option.bind_eq_bind, Option.bind_some, Option.pure_def]

theorem postorderTraversalV2_none (t : Tree T) (hover : 2 ^ 31 < nodes t) (s : S) (w : W)
    (fuel : Nat) : postorderTraversalV2 build visitor fuel t s w = none := by
  cases ht : t.valid with
  | false =>
      cases t with
      | invalid => cases hover
      | node left data right => cases ht
  | true =>
      obtain ⟨σ0, σ1, σ2, h0, h1, h2, r2⟩ := start2_spec build t ht
      have hloop := collect_undefined build t r2 (Nat.le_refl _)
        (by rw [List.length_nil]; omega) fuel
      simp only [postorderTraversalV2, ht, h0, h1, h2, hloop, not_true_eq_false, if_false,
        Option.bind_eq_bind, Option.bind_some, Option.bind_none]

end Postorder

/-! ## Agreement -/

section Agreement

variable (build : Build) {visitor : Visitor T S W}

/-- **Traversals agree.** With a visitor that never asks to stop, the loops of
`preorderTraversalV2` and of `postorderTraversalV2` end with the calls that the recursive
traversals make, in their order, exactly if the stacks can hold what is put on them. -/
theorem traversals_agree_iff (hgo : NeverStops visitor) (t : Tree T) (s : S) (w : W) :
    ((∃ fuel w', preorderTraversalV2 build (recorded visitor) fuel t s (w, []) = some w' ∧
        w'.2 = (preorderTraversal (recorded visitor) t s (w, [])).2) ↔ pending t ≤ 2 ^ 31) ∧
    ((∃ fuel w', postorderTraversalV2 build (recorded visitor) fuel t s (w, []) = some w' ∧
        w'.2 = (postorderTraversal (recorded visitor) t s (w, [])).2) ↔ nodes t ≤ 2 ^ 31) := by
  have hgo' := neverStops_recorded hgo
  constructor
  · constructor
    · rintro ⟨fuel, w', hrun, -⟩
      by_contra hover
      rw [preorderTraversalV2_none build hgo' t (Nat.lt_of_not_le hover)] at hrun
      cases hrun
    · intro hroom
      refine ⟨nodes t + 1, _, preorderTraversalV2_spec build hgo' t hroom s (w, []), ?_⟩
      rw [visited_recorded hgo, preorderTraversal_calls hgo]
  · constructor
    · rintro ⟨fuel, w', hrun, -⟩
      by_contra hover
      rw [postorderTraversalV2_none build t (Nat.lt_of_not_le hover)] at hrun
      cases hrun
    · intro hroom
      refine ⟨nodes t + 1, _, postorderTraversalV2_spec build hgo' t hroom s (w, []), ?_⟩
      rw [visited_recorded hgo, postorderTraversal_calls hgo]

/-- A visitor that does nothing. -/
def passive : Visitor Nat Unit Unit := fun s w _ => (false, s, w)

/-- A tree with two leaves. -/
def small : Tree Nat := .node (.node .invalid 1 .invalid) 0 (.node .invalid 2 .invalid)

theorem traversals_agree_iff_small :
    (∃ fuel w', preorderTraversalV2 .debug (recorded passive) fuel small () ((), []) = some w' ∧
        w'.2 = [(0, false), (1, false), (2, false)]) ∧
    ∃ fuel w', postorderTraversalV2 .debug (recorded passive) fuel small () ((), []) = some w' ∧
        w'.2 = [(1, false), (2, false), (0, false)] := by
  have hagree := traversals_agree_iff .debug (show NeverStops passive from fun _ _ _ => rfl) small
    () ()
  exact ⟨hagree.1.mpr (by decide), hagree.2.mpr (by decide)⟩

/-- A tree that is a single branch of `n` nodes. -/
def branch : Nat → Tree Nat
  | 0 => .invalid
  | n + 1 => .node (branch n) 0 .invalid

theorem nodes_branch (n : Nat) : nodes (branch n) = n := by
  induction n with
  | zero => rfl
  | succ n ih => rw [branch, nodes, nodes, ih, Nat.add_zero]

/-- On a branch of 2^31 + 1 nodes the position on top of `stack2` overflows. -/
theorem postorderTraversalV2_overflows :
    ¬ ∃ fuel w', postorderTraversalV2 .release (recorded passive) fuel (branch (2 ^ 31 + 1)) ()
        ((), []) = some w' ∧
      w'.2 = (postorderTraversal (recorded passive) (branch (2 ^ 31 + 1)) () ((), [])).2 := by
  rintro ⟨fuel, w', hrun, -⟩
  rw [postorderTraversalV2_none _ _ (by rw [nodes_branch]; omega)] at hrun
  cases hrun

end Agreement

end LearnSpace.DataStructure.Tree
