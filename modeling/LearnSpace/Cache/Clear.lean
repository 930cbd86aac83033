import LearnSpace.Keel.Renaming
import LearnSpace.Cache.Methods
import LearnSpace.Cache.Overwrite

/-!
# Clearing the containers

After `clear` of an empty ring the container is a fresh one under other addresses, and no
method can tell the difference (`Renames`). After `clear` of a ring with nodes the
sentry still links to a deleted node, and already the destructor follows that link.
-/

namespace LearnSpace.Cache

open Keel Function

section Clear

variable {K V : Type} {σ σ' τ τ' : LRUContainers K V} {ρ : Ptr → Ptr}
  {h h' : Heap (LRUNode K V)}

/-! ## The links under other addresses -/

/-- A node with its links renamed. -/
def LRUNode.rename (ρ : Ptr → Ptr) (node : LRUNode K V) : LRUNode K V :=
  { node with preNode := ρ node.preNode, nextNode := ρ node.nextNode }

/-- The same nodes under other addresses. -/
abbrev SameNodes (ρ : Ptr → Ptr) (h h' : Heap (LRUNode K V)) : Prop :=
  h.Renames ρ (LRUNode.rename ρ) h'

theorem nextOf_rel (r : SameNodes ρ h h') (p : Ptr) :
    Option.Rel (fun q q' => q' = ρ q) (nextOf h p) (nextOf h' (ρ p)) :=
  rel_of_map (r.field LRUNode.nextNode ρ (fun _ => rfl) p)

theorem preOf_rel (r : SameNodes ρ h h') (p : Ptr) :
    Option.Rel (fun q q' => q' = ρ q) (preOf h p) (preOf h' (ρ p)) :=
  rel_of_map (r.field LRUNode.preNode ρ (fun _ => rfl) p)

theorem entryOf_rel (r : SameNodes ρ h h') (p : Ptr) :
    Option.Rel (fun e e' => e' = e) (entryOf h p) (entryOf h' (ρ p)) :=
  rel_of_map (r.field (fun node => (node.key, node.value)) id (fun _ => rfl) p)

theorem setNext_rel (r : SameNodes ρ h h') (p q : Ptr) :
    Option.Rel (SameNodes ρ) (setNext h p q) (setNext h' (ρ p) (ρ q)) :=
  r.modify (fun node => { node with nextNode := q })
    (fun node => { node with nextNode := ρ q }) (fun _ => rfl) p

theorem setPre_rel (r : SameNodes ρ h h') (p q : Ptr) :
    Option.Rel (SameNodes ρ) (setPre h p q) (setPre h' (ρ p) (ρ q)) :=
  r.modify (fun node => { node with preNode := q })
    (fun node => { node with preNode := ρ q }) (fun _ => rfl) p

/-! ## The methods under other addresses -/

/-- `τ` is `σ` under other addresses. -/
structure Renames (ρ : Ptr → Ptr) (σ τ : LRUContainers K V) : Prop where
  heap : SameNodes ρ σ.heap τ.heap
  nodeMap : ∀ k, τ.nodeMap k = (σ.nodeMap k).map ρ
  sentryNode : τ.sentryNode = ρ σ.sentryNode
  size : τ.size = σ.size

namespace Renames

theorem insertToHead (r : Renames ρ σ τ) (node : Ptr) :
    Option.Rel (Renames ρ) (σ.insertToHead node) (τ.insertToHead (ρ node)) := by
  rw [LRUContainers.insertToHead, LRUContainers.insertToHead, r.sentryNode]
  apply rel_bind (nextOf_rel r.heap σ.sentryNode)
  rintro next _ rfl
  apply rel_bind (setNext_rel r.heap node next)
  intro h₁ h₁' r₁
  apply rel_bind (setPre_rel r₁ node σ.sentryNode)
  intro h₂ h₂' r₂
  apply rel_bind (setNext_rel r₂ σ.sentryNode node)
  intro h₃ h₃' r₃
  apply rel_bind (nextOf_rel r₃ node)
  rintro next _ rfl
  apply rel_bind (setPre_rel r₃ next node)
  intro h₄ h₄' r₄
  exact .some ⟨r₄, r.nodeMap, rfl, r.size⟩

theorem moveNodeToHead (r : Renames ρ σ τ) (node : Ptr) :
    Option.Rel (Renames ρ) (σ.moveNodeToHead node) (τ.moveNodeToHead (ρ node)) := by
  rw [LRUContainers.moveNodeToHead, LRUContainers.moveNodeToHead, r.sentryNode]
  apply rel_bind (preOf_rel r.heap node)
  rintro pre _ rfl
  by_cases hfirst : pre = σ.sentryNode
  · rw [if_pos hfirst, if_pos (congrArg ρ hfirst)]
    exact .some r
  · rw [if_neg hfirst, if_neg (r.heap.injective.ne hfirst)]
    apply rel_bind (nextOf_rel r.heap node)
    rintro next _ rfl
    apply rel_bind (setNext_rel r.heap pre next)
    intro h₁ h₁' r₁
    apply rel_bind (nextOf_rel r₁ node)
    rintro next _ rfl
    apply rel_bind (preOf_rel r₁ node)
    rintro pre _ rfl
    apply rel_bind (setPre_rel r₁ next pre)
    intro h₂ h₂' r₂
    have r' : Renames ρ { σ with heap := h₂ } { τ with heap := h₂' } :=
      ⟨r₂, r.nodeMap, r.sentryNode, r.size⟩
    rw [← r.sentryNode]
    exact r'.insertToHead node

theorem addToHead (r : Renames ρ σ τ) (k : K) (v : V) :
    let new := σ.heap.alloc { key := k, value := v }
    let new' := τ.heap.alloc { key := k, value := v }
    new'.1 = ρ new.1 ∧
      Option.Rel (Renames ρ) ({ σ with heap := new.2 }.insertToHead new.1)
        ({ τ with heap := new'.2 }.insertToHead new'.1) := by
  intro new new'
  have hblank : LRUNode.rename ρ { key := k, value := v } = { key := k, value := v } := by
    rw [LRUNode.rename, r.heap.null]
  have haddress : new'.1 = ρ new.1 := r.heap.alloc_address _ _
  have hheap := r.heap.alloc { key := k, value := v }
  rw [hblank] at hheap
  have r' : Renames ρ { σ with heap := new.2 } { τ with heap := new'.2 } :=
    ⟨hheap, r.nodeMap, r.sentryNode, r.size⟩
  refine ⟨haddress, ?_⟩
  rw [haddress]
  exact r'.insertToHead new.1

variable [DecidableEq K]

/-- A key is filed under the renamed pointer. -/
theorem file (r : Renames ρ σ τ) (k : K) (p : Option Ptr) :
    Renames ρ { σ with nodeMap := update σ.nodeMap k p }
      { τ with nodeMap := update τ.nodeMap k (p.map ρ) } := by
  refine ⟨r.heap, ?_, r.sentryNode, r.size⟩
  intro k'
  by_cases hk : k' = k
  · show update τ.nodeMap k (p.map ρ) k' = (update σ.nodeMap k p k').map ρ
    rw [hk, update_self, update_self]
  · show update τ.nodeMap k (p.map ρ) k' = (update σ.nodeMap k p k').map ρ
    rw [update_of_ne hk, update_of_ne hk, r.nodeMap]

theorem put (r : Renames ρ σ τ) (k : K) (v : V) :
    Option.Rel (Renames ρ) (σ.put k v) (τ.put k v) := by
  have hfiled := r.nodeMap k
  cases hk : σ.nodeMap k with
  | none =>
      rw [hk, Option.map_none] at hfiled
      obtain ⟨haddress, hins⟩ := r.addToHead k v
      simp only [LRUContainers.put, hk, hfiled, Option.bind_eq_bind]
      apply rel_bind hins
      intro σ₁ τ₁ r₁
      have hsize : (τ₁.size + 1) % uintSize = (σ₁.size + 1) % uintSize := by rw [r₁.size]
      have r₂ : Renames ρ { σ₁ with size := (σ₁.size + 1) % uintSize }
          { τ₁ with size := (τ₁.size + 1) % uintSize } :=
        ⟨r₁.heap, r₁.nodeMap, r₁.sentryNode, hsize⟩
      rw [haddress]
      exact .some (r₂.file k _)
  | some p =>
      rw [hk, Option.map_some] at hfiled
      simp only [LRUContainers.put, hk, hfiled, Option.bind_eq_bind]
      apply rel_bind (r.moveNodeToHead p)
      intro σ₁ τ₁ r₁
      have hnull := r₁.file k (some null)
      rw [Option.map_some, r.heap.null] at hnull
      exact .some hnull

theorem putMove (r : Renames ρ σ τ) (k : K) (v : V) (residual : K) :
    Option.Rel (Renames ρ) (σ.putMove k v residual) (τ.putMove k v residual) := by
  have hfiled := r.nodeMap k
  cases hk : σ.nodeMap k with
  | none =>
      rw [hk, Option.map_none] at hfiled
      obtain ⟨haddress, hins⟩ := r.addToHead k v
      simp only [LRUContainers.putMove, hk, hfiled, Option.bind_eq_bind]
      apply rel_bind hins
      intro σ₁ τ₁ r₁
      have hsize : (τ₁.size + 1) % uintSize = (σ₁.size + 1) % uintSize := by rw [r₁.size]
      have r₂ : Renames ρ { σ₁ with size := (σ₁.size + 1) % uintSize }
          { τ₁ with size := (τ₁.size + 1) % uintSize } :=
        ⟨r₁.heap, r₁.nodeMap, r₁.sentryNode, hsize⟩
      rw [haddress]
      exact .some (r₂.file residual _)
  | some p =>
      rw [hk, Option.map_some] at hfiled
      rw [InRing.putMove_hit hk, InRing.putMove_hit hfiled]
      exact r.put k v

omit [DecidableEq K] in
theorem get (r : Renames ρ σ τ) (k : K) (v : V) :
    Option.Rel (fun x y => Renames ρ x.1 y.1 ∧ x.2 = y.2) (σ.get k v) (τ.get k v) := by
  have hfiled := r.nodeMap k
  cases hk : σ.nodeMap k with
  | none =>
      rw [hk, Option.map_none] at hfiled
      rw [get_miss hk, get_miss hfiled]
      exact .some ⟨r, rfl⟩
  | some p =>
      rw [hk, Option.map_some] at hfiled
      simp only [LRUContainers.get, hk, hfiled, Option.bind_eq_bind]
      apply rel_bind (entryOf_rel r.heap p)
      rintro ⟨key, value⟩ _ rfl
      apply rel_bind (r.moveNodeToHead p)
      intro σ₁ τ₁ r₁
      exact .some ⟨r₁, rfl⟩

theorem removeLast (r : Renames ρ σ τ) :
    Option.Rel (Renames ρ) σ.removeLast τ.removeLast := by
  rw [LRUContainers.removeLast, LRUContainers.removeLast, r.size, r.sentryNode]
  by_cases hsize : σ.size = 0
  · rw [if_pos hsize, if_pos hsize]
    exact .some r
  · rw [if_neg hsize, if_neg hsize]
    apply rel_bind (preOf_rel r.heap σ.sentryNode)
    rintro lastNode _ rfl
    apply rel_bind (preOf_rel r.heap lastNode)
    rintro pre _ rfl
    apply rel_bind (setNext_rel r.heap pre σ.sentryNode)
    intro h₁ h₁' r₁
    apply rel_bind (preOf_rel r₁ lastNode)
    rintro pre _ rfl
    apply rel_bind (setPre_rel r₁ σ.sentryNode pre)
    intro h₂ h₂' r₂
    apply rel_bind (entryOf_rel r₂ lastNode)
    rintro ⟨key, value⟩ _ rfl
    apply rel_bind (r₂.free lastNode)
    intro h₃ h₃' r₃
    have hfile := r.file key none
    exact .some ⟨r₃, hfile.nodeMap, rfl, rfl⟩

/-! ## `clear` and the destructor under other addresses -/

omit [DecidableEq K] in
theorem clearRound (r : SameNodes ρ h h') (node : Ptr) :
    Option.Rel (fun s t => SameNodes ρ s.1 t.1 ∧ t.2 = ρ s.2)
      (LRUContainers.clearRound h node) (LRUContainers.clearRound h' (ρ node)) := by
  apply rel_bind (nextOf_rel r node)
  rintro next _ rfl
  apply rel_bind (preOf_rel r next)
  rintro pre _ rfl
  apply rel_bind (r.free pre)
  intro h₁ h₁' r₁
  exact .some ⟨r₁, rfl⟩

omit [DecidableEq K] in
theorem clearLoop (r : SameNodes ρ h h') (sentryNode node : Ptr) :
    Option.Rel (SameNodes ρ) ((LRUContainers.clearLoop sentryNode).run (h, node)).toOption
      ((LRUContainers.clearLoop (ρ sentryNode)).run (h', ρ node)).toOption := by
  refine While.run_rel (R := fun s t => SameNodes ρ s.1 t.1 ∧ t.2 = ρ s.2) ?_
    (s := (h, node)) (t := (h', ρ node)) ⟨r, rfl⟩
  rintro ⟨h₁, p⟩ ⟨h₁', p'⟩ ⟨r₁, hp'⟩
  obtain rfl : p' = ρ p := hp'
  by_cases hp : p = sentryNode
  · simp only [LRUContainers.clearLoop, if_pos hp, if_pos (congrArg ρ hp)]
    exact .some (.inr r₁)
  · have hround := clearRound r₁ p
    simp only [LRUContainers.clearLoop, if_neg hp, if_neg (r₁.injective.ne hp)]
    generalize LRUContainers.clearRound h₁ p = a at hround ⊢
    generalize LRUContainers.clearRound h₁' (ρ p) = b at hround ⊢
    cases hround with
    | none => exact .none
    | some hst => exact .some (.inl hst)

omit [DecidableEq K] in
theorem clear (r : Renames ρ σ τ) : Option.Rel (Renames ρ) σ.clear τ.clear := by
  rw [LRUContainers.clear, LRUContainers.clear, r.sentryNode]
  apply rel_bind (nextOf_rel r.heap σ.sentryNode)
  rintro node _ rfl
  apply rel_bind (clearLoop r.heap σ.sentryNode node)
  intro h₁ h₁' r₁
  exact .some ⟨r₁, fun _ => rfl, rfl, rfl⟩

omit [DecidableEq K] in
theorem destruct (r : Renames ρ σ τ) :
    Option.Rel (SameNodes ρ) σ.destruct τ.destruct := by
  apply rel_bind r.clear
  intro σ₁ τ₁ r₁
  rw [r₁.sentryNode]
  exact r₁.heap.free σ₁.sentryNode

variable [Inhabited K] [Inhabited V]

/-- No method tells the addresses apart. -/
theorem exec (r : Renames ρ σ τ) (c : MethodCall K V) :
    Option.Rel (fun x y => Renames ρ x.1 y.1 ∧ x.2 = y.2) ((methods K V).exec σ c)
      ((methods K V).exec τ c) := by
  cases c with
  | put k v => exact rel_map (r.put k v) (fun _ _ h => ⟨h, rfl⟩)
  | putMove k v residual => exact rel_map (r.putMove k v residual) (fun _ _ h => ⟨h, rfl⟩)
  | get k v =>
      apply rel_map (r.get k v)
      rintro ⟨σ₁, a⟩ ⟨τ₁, b⟩ ⟨r₁, hab⟩
      obtain rfl : a = b := hab
      exact ⟨r₁, rfl⟩
  | removeLast => exact rel_map r.removeLast (fun _ _ h => ⟨h, rfl⟩)
  | size => exact .some ⟨r, congrArg MethodAnswer.size r.size.symm⟩
  | clear => exact rel_map r.clear (fun _ _ h => ⟨h, rfl⟩)

end Renames

/-! ## What clearing owes -/

section Owed

variable [DecidableEq K] [Inhabited K] [Inhabited V]

/-- What a client sees of a container: the answers to its calls, if all of them have a
defined behaviour, and so has the destruction, if there is one in the end. -/
def observe (σ : LRUContainers K V) (calls : List (MethodCall K V)) (destroyed : Bool) :
    Option (List (MethodAnswer V)) :=
  ((methods K V).run σ calls).bind fun r =>
    if destroyed then r.1.destruct.map fun _ => r.2 else some r.2

/-- `clear` deletes the nodes of the ring and no others, and from then on the container is
as good as a new one. -/
def ClearsWell (σ : LRUContainers K V) : Prop :=
  ∃ σ' as, σ.clear = some σ' ∧ RingOf σ as ∧
    (∀ p, Live σ'.heap p ↔ Live σ.heap p ∧ p ∉ as) ∧
    ∀ calls destroyed, observe σ' calls destroyed = observe .construct calls destroyed

/-- Containers that are the same up to addresses look the same. -/
theorem Renames.observe_eq (r : Renames ρ σ τ) (calls : List (MethodCall K V))
    (destroyed : Bool) : observe τ calls destroyed = observe σ calls destroyed := by
  have hrel : Option.Rel Eq (observe σ calls destroyed) (observe τ calls destroyed) := by
    apply rel_bind (Machine.run_rel (R := Renames ρ) (fun _ _ c h => h.exec c) calls r)
    rintro ⟨σ₁, answers⟩ ⟨τ₁, answers'⟩ ⟨r₁, heq⟩
    obtain rfl : answers = answers' := heq
    cases destroyed with
    | true => exact rel_map r₁.destruct (fun _ _ _ => rfl)
    | false => exact .some rfl
  generalize observe σ calls destroyed = a at hrel ⊢
  generalize observe τ calls destroyed = b at hrel ⊢
  cases hrel with
  | none => rfl
  | some heq => rw [heq]

/-- The addresses of a fresh container, in one whose sentry is at `sentry` and whose next
node will be at `brk`. -/
def readdress (sentry brk : Ptr) : Ptr → Ptr
  | 0 => null
  | 1 => sentry
  | n + 2 => brk + n

theorem readdress_injective {sentry brk : Ptr} (hnull : null ≠ sentry) (hlt : sentry < brk) :
    Injective (readdress sentry brk) := by
  have hbehind (n : Nat) : sentry < brk + n := Nat.lt_of_lt_of_le hlt (Nat.le_add_right brk n)
  have hpos (n : Nat) : null < brk + n := Nat.lt_of_le_of_lt (Nat.zero_le sentry) (hbehind n)
  intro p q hpq
  match p, q with
  | 0, 0 => rfl
  | 1, 1 => rfl
  | n + 2, m + 2 => exact congrArg (· + 2) (Nat.add_left_cancel hpq)
  | 0, 1 => exact absurd hpq hnull
  | 1, 0 => exact absurd hpq.symm hnull
  | 0, m + 2 => exact absurd hpq (Nat.ne_of_lt (hpos m))
  | n + 2, 0 => exact absurd hpq.symm (Nat.ne_of_lt (hpos n))
  | 1, m + 2 => exact absurd hpq (Nat.ne_of_lt (hbehind m))
  | n + 2, 1 => exact absurd hpq.symm (Nat.ne_of_lt (hbehind n))

omit [DecidableEq K] in
/-- An empty container is a fresh one under other addresses. -/
theorem InRing.renames_construct (i : InRing σ []) (hmap : ∀ k, σ.nodeMap k = none)
    (hsize : σ.size = 0) :
    Renames (readdress σ.sentryNode σ.heap.brk) (.construct : LRUContainers K V) σ := by
  obtain ⟨node, hnode⟩ := i.sentry_live
  have hnext : nextOf σ.heap σ.sentryNode = some σ.sentryNode := Ring.next_sentry i.ring
  have hpre : preOf σ.heap σ.sentryNode = some σ.sentryNode := Ring.prev_sentry i.ring
  have hentry := i.blank
  rw [nextOf, Heap.load, hnode, Option.map_some, Option.some_inj] at hnext
  rw [preOf, Heap.load, hnode, Option.map_some, Option.some_inj] at hpre
  rw [entryOf, Heap.load, hnode, Option.map_some, Option.some_inj, Prod.mk.injEq] at hentry
  refine ⟨⟨readdress_injective i.sentry_ne_null (σ.heap.lt_brk hnode), rfl, ?_, ?_⟩, hmap,
    rfl, hsize⟩
  · intro n
    show readdress _ _ (2 + n) = _
    rw [Nat.add_comm 2 n]
    rfl
  · intro p
    rcases p with _ | _ | n
    · exact σ.heap.cell_null
    · show σ.heap.cell σ.sentryNode = _
      rw [hnode]
      cases node
      cases hnext
      cases hpre
      cases hentry.1
      cases hentry.2
      rfl
    · exact σ.heap.cell_above _ (Nat.le_add_right _ _)

omit [DecidableEq K] in
/-- `clear` deletes the nodes of a ring, each once, and no other cell. -/
theorem InRing.clear_deletes {as : List Ptr} (i : InRing σ as) :
    ∃ σ', σ.clear = some σ' ∧ ∀ p, Live σ'.heap p ↔ Live σ.heap p ∧ p ∉ as := by
  obtain ⟨heap, hclear, -, hcell⟩ := i.clear
  refine ⟨_, hclear, ?_⟩
  intro p
  show Live heap p ↔ _
  by_cases hp : p ∈ as
  · simp [Live, hcell, hp]
  · simp [Live, hcell, hp]

omit [DecidableEq K] in
/-- The destructor of a container whose sentry is in order leaves no node behind. -/
theorem InRing.destruct {as : List Ptr} (i : InRing σ as) :
    ∃ heap, σ.destruct = some heap ∧ ∀ p, ¬ Live heap p := by
  obtain ⟨heap, hclear, -, hcell⟩ := i.clear
  have hout : σ.sentryNode ∉ as := (List.nodup_cons.mp i.ring.nodup).1
  obtain ⟨node, hnode⟩ := i.sentry_live
  have hsentry : heap.cell σ.sentryNode = some node := by rw [hcell, if_neg hout, hnode]
  obtain ⟨heap', hfree, hcell'⟩ := Heap.free_eq hsentry
  refine ⟨heap', ?_, ?_⟩
  · simp only [LRUContainers.destruct, hclear, Option.bind_eq_bind, Option.bind_some, hfree]
  · rintro p ⟨node', hp⟩
    rw [hcell'] at hp
    by_cases hps : p = σ.sentryNode
    · rw [hps, update_self] at hp
      cases hp
    · rw [update_of_ne hps, hcell] at hp
      by_cases hmem : p ∈ as
      · rw [if_pos hmem] at hp
        cases hp
      · rw [if_neg hmem] at hp
        exact hmem ((List.mem_cons.mp ((i.owned p).mp ⟨node', hp⟩)).resolve_left hps)

/-- A container without nodes is cleared well. -/
theorem InRing.clearsWell (i : InRing σ []) : ClearsWell σ := by
  obtain ⟨σ', hclear, hlive⟩ := i.clear_deletes
  obtain ⟨i', hmap, hsize⟩ := i.clear_nil hclear
  exact ⟨σ', [], hclear, i.ring, hlive, (i'.renames_construct hmap hsize).observe_eq⟩

/-- A container with nodes is not: it cannot even be destroyed any more. -/
theorem Settled.not_clearsWell (hσ : Settled σ)
    (hne : nextOf σ.heap σ.sentryNode ≠ some σ.sentryNode) : ¬ ClearsWell σ := by
  rintro ⟨σ', -, hclear, -, -, hobserve⟩
  rcases hσ with ⟨_ | ⟨a, as⟩, i⟩ | s
  · exact hne (Ring.next_sentry i.ring)
  · have hstale := (i.clear_cons hclear).clear_none
    obtain ⟨heap, hfresh, -⟩ :=
      (construct_inRing : InRing (LRUContainers.construct : LRUContainers K V) []).destruct
    have hnone : observe σ' [] true = none := by
      simp only [observe, Machine.run, LRUContainers.destruct, hstale, Option.bind_some,
        Option.bind_eq_bind, Option.bind_none, Option.map_none, if_true]
    have hsome : observe (LRUContainers.construct : LRUContainers K V) [] true = some [] := by
      simp only [observe, Machine.run, hfresh, Option.bind_some, Option.map_some, if_true]
    rw [hobserve, hsome] at hnone
    cases hnone
  · rw [s.clear_none] at hclear
    cases hclear

/-- **`clear` works exactly on an empty ring.** In any state that the methods reach, the
nodes of the ring are deleted, and the container behaves as a fresh one afterwards, if and
only if the sentry links to itself. -/
theorem clearsWell_iff (hσ : MethodsReachable σ) :
    ClearsWell σ ↔ nextOf σ.heap σ.sentryNode = some σ.sentryNode := by
  have hsettled := methods_settled hσ
  constructor
  · intro hwell
    by_contra hne
    exact hsettled.not_clearsWell hne hwell
  · intro hempty
    rcases hsettled with ⟨_ | ⟨a, as⟩, i⟩ | s
    · exact i.clearsWell
    · have hfirst : nextOf σ.heap σ.sentryNode = some a := Ring.next_sentry i.ring
      rw [hempty, Option.some_inj] at hfirst
      exact absurd (hfirst ▸ List.mem_cons_self) (List.nodup_cons.mp i.ring.nodup).1
    · exact absurd ⟨_, hempty, live_of_nextOf hempty⟩ s.not_linked

end Owed
end Clear

theorem oneResident_methodsReachable : MethodsReachable oneResident :=
  .step (e := MethodCall.put 1 10) (.init rfl) ⟨trivial, .done, rfl⟩

theorem clearsWell_iff_oneResident :
    ClearsWell oneResident ↔
      nextOf oneResident.heap oneResident.sentryNode = some oneResident.sentryNode :=
  clearsWell_iff oneResident_methodsReachable

/-- `put(1, 10)`, `clear()`, and the container can neither be destroyed nor used. -/
theorem clear_breaks :
    MethodsReachable oneResident ∧ ¬ ClearsWell oneResident ∧
      (oneResident.clear.isSome ∧ (oneResident.clear.bind LRUContainers.destruct) = none ∧
        (oneResident.clear.bind fun σ => (σ.put 2 20).map (·.size)) = none) := by
  refine ⟨oneResident_methodsReachable, ?_, by decide +kernel⟩
  apply (methods_settled oneResident_methodsReachable).not_clearsWell
  decide +kernel

end LearnSpace.Cache
