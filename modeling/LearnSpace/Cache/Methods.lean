import LearnSpace.Cache.LruRing

/-!
# The states of the containers

All public methods of `LRUContainers`, and what holds between them. The ring holds all live
nodes, counted by `size`, and no key is filed under the sentry (`InRing`). More than
that is not to be had: a key may be filed under null, under the node of another key or
under a deleted node.

`clear` deletes the nodes and leaves the links of the sentry as they are. If there was a
node the container is `Stale` from then on: a call that follows these links has no defined
behaviour, and the others find nothing to do.
-/

namespace LearnSpace.Cache

open Keel Function

/-- A call of a public method. `putMove` is `put(Key&&, Value&&)` with what the move leaves
of the key, and `get` brings the content of its out-parameter. -/
inductive MethodCall (K V : Type)
  | put (key : K) (value : V)
  | putMove (key : K) (value : V) (residual : K)
  | get (key : K) (value : V)
  | removeLast
  | size
  | clear

/-- What a method gives back. -/
inductive MethodAnswer (V : Type)
  | found (ret : Bool) (value : V)
  | size (n : Nat)
  | done
  deriving DecidableEq

/-- The public methods of `LRUContainers`, from its construction. -/
def methods (K V : Type) [DecidableEq K] [Inhabited K] [Inhabited V] :
    Machine (LRUContainers K V) (MethodCall K V) (MethodAnswer V) where
  start := .construct
  exec
    | σ, .put key value => (σ.put key value).map (·, .done)
    | σ, .putMove key value residual => (σ.putMove key value residual).map (·, .done)
    | σ, .get key value => (σ.get key value).map fun r => (r.1, .found r.2.1 r.2.2)
    | σ, .removeLast => σ.removeLast.map (·, .done)
    | σ, .size => some (σ, .size σ.size)
    | σ, .clear => σ.clear.map (·, .done)

/-- The states that runs of the methods reach. -/
def MethodsReachable {K V : Type} [DecidableEq K] [Inhabited K] [Inhabited V]
    (σ : LRUContainers K V) : Prop :=
  ((methods K V).toTSys (fun _ _ => True)).Reachable σ

section Invariant

variable {K V : Type} [Inhabited K] [Inhabited V]
  {σ σ' : LRUContainers K V} {as : List Ptr} {p : Ptr} {k : K} {v : V}

/-- The live nodes are the ring `as`, and the sentry. -/
structure InRing (σ : LRUContainers K V) (as : List Ptr) : Prop where
  ring : RingOf σ as
  owned : ∀ p, Live σ.heap p ↔ p ∈ σ.sentryNode :: as
  counted : σ.size = as.length % uintSize
  filed : ∀ k p, σ.nodeMap k = some p → p ≠ σ.sentryNode
  blank : entryOf σ.heap σ.sentryNode = some (default, default)

/-- The container is cleared, but its sentry links to a deleted node. -/
structure Stale (σ : LRUContainers K V) : Prop where
  lost : ∃ p, nextOf σ.heap σ.sentryNode = some p ∧ σ.heap.Lost p
  size : σ.size = 0
  nodeMap : ∀ k, σ.nodeMap k = none

/-- The sentry links to a live node, or to itself. -/
def Linked (σ : LRUContainers K V) : Prop :=
  ∃ p, nextOf σ.heap σ.sentryNode = some p ∧ Live σ.heap p

/-- A state between two calls. -/
def Settled (σ : LRUContainers K V) : Prop := (∃ as, InRing σ as) ∨ Stale σ

/-! ## The ring -/

theorem construct_inRing : InRing (LRUContainers.construct : LRUContainers K V) [] where
  ring := construct_rep.ring
  owned := construct_rep.owned
  counted := rfl
  filed _ _ h := by cases h
  blank := rfl

namespace InRing

theorem linked (i : InRing σ as) : Linked σ :=
  ⟨_, Ring.next_sentry i.ring, i.ring.live (Chain.succ_mem _ [] as)⟩

theorem sentry_live (i : InRing σ as) : Live σ.heap σ.sentryNode :=
  (i.owned _).mpr List.mem_cons_self

theorem sentry_ne_null (i : InRing σ as) : null ≠ σ.sentryNode := by
  obtain ⟨node, hnode⟩ := i.sentry_live
  exact (σ.heap.ne_null hnode).symm

/-- A key may be filed under any pointer but the sentry. -/
theorem file [DecidableEq K] (i : InRing σ as) (hp : p ≠ σ.sentryNode) (k : K) :
    InRing { σ with nodeMap := update σ.nodeMap k (some p) } as := by
  refine ⟨i.ring, i.owned, i.counted, ?_, i.blank⟩
  intro k' q hq
  by_cases hk : k' = k
  · have hfiled : update σ.nodeMap k (some p) k = some q := hk ▸ hq
    rw [update_self, Option.some_inj] at hfiled
    exact hfiled ▸ hp
  · have hfiled : update σ.nodeMap k (some p) k' = some q := hq
    rw [update_of_ne hk] at hfiled
    exact i.filed k' q hfiled

/-- A node that is made and put in front. -/
theorem addToHead (i : InRing σ as) (k : K) (v : V) :
    let new := σ.heap.alloc { key := k, value := v }
    ∃ heap, { σ with heap := new.2 }.insertToHead new.1 = some { σ with heap := heap } ∧
      InRing { σ with heap := heap, size := (σ.size + 1) % uintSize } (new.1 :: as) ∧
      new.1 ≠ σ.sentryNode ∧ entryOf heap new.1 = some (k, v) := by
  intro new
  obtain ⟨heap, hins, hring, hfresh, hentry, howned⟩ := addToHead_spec i.ring i.owned k v
  have hne : new.1 ≠ σ.sentryNode := fun he => hfresh (he ▸ List.mem_cons_self)
  refine ⟨heap, hins, ⟨hring, howned, ?_, i.filed, ?_⟩, hne, ?_⟩
  · show (σ.size + 1) % uintSize = _
    rw [i.counted, List.length_cons, Nat.mod_add_mod]
  · show entryOf heap σ.sentryNode = _
    rw [hentry, update_of_ne hne.symm]
    exact i.blank
  · rw [hentry, update_self]

/-- A node that is moved to the front. -/
theorem moveNodeToHead (i : InRing σ as) (hp : p ∈ as) :
    ∃ heap as', σ.moveNodeToHead p = some { σ with heap := heap } ∧
      InRing { σ with heap := heap } as' := by
  obtain ⟨xs, ys, rfl⟩ := List.append_of_mem hp
  obtain ⟨heap, hmove, hring, hentry⟩ := moveNodeToHead_spec i.ring
  have hperm : (p :: (xs ++ ys)).Perm (xs ++ p :: ys) := List.perm_middle.symm
  refine ⟨heap, p :: (xs ++ ys), hmove, hring, ?_, ?_, i.filed, ?_⟩
  · intro q
    show Live heap q ↔ _
    rw [live_iff_entryOf, hentry, ← live_iff_entryOf, i.owned q, List.mem_cons, List.mem_cons,
      hperm.mem_iff]
  · rw [hperm.length_eq]
    exact i.counted
  · rw [show entryOf heap = entryOf σ.heap from hentry]
    exact i.blank

/-- A node that a key is filed under is in the ring, or it is not live. -/
theorem mem_of_live (i : InRing σ as) (hp : p ≠ σ.sentryNode) (hlive : Live σ.heap p) :
    p ∈ as :=
  (List.mem_cons.mp ((i.owned p).mp hlive)).resolve_left hp

/-- What `moveNodeToHead` does to a node that a key is filed under, if anything. -/
theorem moved (i : InRing σ as) (hp : p ≠ σ.sentryNode) (h : σ.moveNodeToHead p = some σ') :
    ∃ heap as', σ' = { σ with heap := heap } ∧ InRing σ' as' := by
  have hlive : Live σ.heap p := by
    rw [LRUContainers.moveNodeToHead, Option.bind_eq_bind, Option.bind_eq_some_iff] at h
    obtain ⟨pre, hpre, -⟩ := h
    obtain ⟨node, hnode, -⟩ := Option.map_eq_some_iff.mp hpre
    exact ⟨node, hnode⟩
  obtain ⟨heap, as', hmove, i'⟩ := i.moveNodeToHead (i.mem_of_live hp hlive)
  rw [h, Option.some_inj] at hmove
  subst hmove
  exact ⟨heap, as', rfl, i'⟩

/-! ## Methods on the ring -/

variable [DecidableEq K]

/-- `put` of a key that is not resident. -/
theorem put_miss (i : InRing σ as) (hk : σ.nodeMap k = none) (v : V) :
    ∃ heap p, σ.put k v = some ⟨heap, update σ.nodeMap k (some p), σ.sentryNode,
        (σ.size + 1) % uintSize⟩ ∧
      (∀ residual, σ.putMove k v residual =
        some ⟨heap, update σ.nodeMap residual (some p), σ.sentryNode,
          (σ.size + 1) % uintSize⟩) ∧
      InRing { σ with heap := heap, size := (σ.size + 1) % uintSize } (p :: as) ∧
      p ≠ σ.sentryNode ∧ entryOf heap p = some (k, v) := by
  obtain ⟨heap, hins, i', hne, hentry⟩ := i.addToHead k v
  refine ⟨heap, _, ?_, ?_, i', hne, hentry⟩
  · simp [LRUContainers.put, hk, hins]
  · intro residual
    simp [LRUContainers.putMove, hk, hins]

/-- `put` of a resident key files it under null. -/
theorem put_hit (i : InRing σ as) (hk : σ.nodeMap k = some p) (h : σ.put k v = some σ') :
    ∃ as', InRing σ' as' := by
  cases hmove : σ.moveNodeToHead p with
  | none => simp [LRUContainers.put, hk, hmove] at h
  | some σ₁ =>
      obtain ⟨heap, as', rfl, i'⟩ := i.moved (i.filed k p hk) hmove
      simp only [LRUContainers.put, hk, hmove, Option.bind_eq_bind, Option.bind_some,
        Option.pure_def, Option.some_inj] at h
      subst h
      exact ⟨as', i'.file i.sentry_ne_null k⟩

omit [Inhabited K] [Inhabited V] in
/-- On a resident key the two overloads do the same. -/
theorem putMove_hit (hk : σ.nodeMap k = some p) (v : V) (residual : K) :
    σ.putMove k v residual = σ.put k v := by
  simp only [LRUContainers.putMove, LRUContainers.put, hk, Option.bind_eq_bind]
  cases σ.moveNodeToHead p with
  | none => rfl
  | some σ₁ => rfl

theorem put (i : InRing σ as) (h : σ.put k v = some σ') : ∃ as', InRing σ' as' := by
  cases hk : σ.nodeMap k with
  | none =>
      obtain ⟨heap, p, hput, -, i', hne, -⟩ := i.put_miss hk v
      rw [h, Option.some_inj] at hput
      subst hput
      exact ⟨_, i'.file hne k⟩
  | some p => exact i.put_hit hk h

theorem putMove {residual : K} (i : InRing σ as) (h : σ.putMove k v residual = some σ') :
    ∃ as', InRing σ' as' := by
  cases hk : σ.nodeMap k with
  | none =>
      obtain ⟨heap, p, -, hput, i', hne, -⟩ := i.put_miss hk v
      rw [hput residual, Option.some_inj] at h
      subst h
      exact ⟨_, i'.file hne residual⟩
  | some p =>
      rw [putMove_hit hk] at h
      exact i.put_hit hk h

omit [DecidableEq K] in
theorem get {w : V} {b : Bool} (i : InRing σ as) (h : σ.get k v = some (σ', b, w)) :
    ∃ as', InRing σ' as' := by
  cases hk : σ.nodeMap k with
  | none =>
      rw [LRUContainers.get, hk] at h
      cases h
      exact ⟨as, i⟩
  | some p =>
      simp only [LRUContainers.get, hk, Option.bind_eq_bind, Option.bind_eq_some_iff] at h
      obtain ⟨e, -, σ₁, hmove, hpure⟩ := h
      obtain ⟨heap, as', -, i'⟩ := i.moved (i.filed k p hk) hmove
      cases hpure
      exact ⟨as', i'⟩

theorem removeLast (i : InRing σ as) (h : σ.removeLast = some σ') :
    ∃ as', InRing σ' as' := by
  by_cases hsize : σ.size = 0
  · rw [LRUContainers.removeLast, if_pos hsize] at h
    cases h
    exact ⟨as, i⟩
  · rcases List.eq_nil_or_concat' as with rfl | ⟨xs, p, rfl⟩
    · exact absurd i.counted hsize
    · have hlive : Live σ.heap p := (i.owned p).mpr (by simp)
      obtain ⟨⟨k, v⟩, hentry⟩ := Option.isSome_iff_exists.mp (live_iff_entryOf.mp hlive)
      obtain ⟨heap, hrem, hring, hentries, howned⟩ := unlinkLast i.ring i.owned hentry hsize
      rw [h, Option.some_inj] at hrem
      subst hrem
      have hout : p ∉ σ.sentryNode :: (xs ++ []) := Ring.not_mem_rest i.ring
      refine ⟨xs, hring, howned, ?_, ?_, ?_⟩
      · refine uint_pred ?_
        rw [i.counted, List.length_append]
        rfl
      · intro k' q hq
        by_cases hk : k' = k
        · have hfiled : update σ.nodeMap k none k = some q := hk ▸ hq
          rw [update_self] at hfiled
          cases hfiled
        · have hfiled : update σ.nodeMap k none k' = some q := hq
          rw [update_of_ne hk] at hfiled
          exact i.filed k' q hfiled
      · show entryOf heap σ.sentryNode = _
        have hne : σ.sentryNode ≠ p := by
          rintro rfl
          exact hout List.mem_cons_self
        rw [hentries, update_of_ne hne]
        exact i.blank

end InRing

/-! ## `clear` -/

omit [Inhabited K] [Inhabited V] in
/-- The loop of `clear` deletes the nodes that are left of a ring. -/
theorem clearLoop_ring {rs : List Ptr} :
    ∀ {xs : List Ptr} {h : Heap (LRUNode K V)}, RingOf σ (xs ++ rs) →
      (∀ p ∈ σ.sentryNode :: rs, h.cell p = σ.heap.cell p) →
      ∃ h', (LRUContainers.clearLoop σ.sentryNode).run (h, rs.headD σ.sentryNode) = .ok h' ∧
        h'.brk = h.brk ∧ ∀ p, h'.cell p = if p ∈ rs then none else h.cell p := by
  induction rs with
  | nil =>
      intro xs h _ _
      refine ⟨h, While.run_leave (if_pos rfl), rfl, ?_⟩
      intro p
      rw [if_neg List.not_mem_nil]
  | cons a rs ih =>
      intro xs h hring hcell
      have hout : a ∉ σ.sentryNode :: (xs ++ rs) := Ring.not_mem_rest hring
      have hsucc : rs.headD σ.sentryNode ∈ σ.sentryNode :: a :: rs := Chain.succ_mem _ [a] rs
      have hnext : nextOf h a = some (rs.headD σ.sentryNode) := by
        rw [← Ring.next_of_mem hring, nextOf, nextOf, Heap.load, Heap.load,
          hcell a (by simp)]
      have hpre : preOf h (rs.headD σ.sentryNode) = some a := by
        rw [← Ring.prev_of_succ hring, preOf, preOf, Heap.load, Heap.load, hcell _ hsucc]
      obtain ⟨node, hnode⟩ := live_of_nextOf hnext
      obtain ⟨h₁, hfree, -⟩ := Heap.free_eq hnode
      obtain ⟨-, -, hcell₁, hbrk₁⟩ := Heap.free_some hfree
      have hne : a ≠ σ.sentryNode := fun he => hout (he ▸ List.mem_cons_self)
      have hround : LRUContainers.clearRound h a = some (h₁, rs.headD σ.sentryNode) := by
        simp only [LRUContainers.clearRound, hnext, hpre, hfree, Option.bind_eq_bind,
          Option.bind_some, Option.pure_def]
      have hbody : (LRUContainers.clearLoop σ.sentryNode).body (h, a) =
          .ok (.inl (h₁, rs.headD σ.sentryNode)) := by
        simp only [LRUContainers.clearLoop, if_neg hne, hround]
      have hkeep (p : Ptr) (hp : p ≠ a) : h₁.cell p = h.cell p := by
        rw [hcell₁, update_of_ne hp]
      rw [List.append_cons] at hring
      obtain ⟨h', hrun, hbrk, hcell'⟩ := ih (h := h₁) hring (by
        intro p hp
        have hpa : p ≠ a := by
          rintro rfl
          exact hout (List.mem_cons.mpr ((List.mem_cons.mp hp).imp_right
            (List.mem_append_right xs)))
        rw [hkeep p hpa]
        exact hcell p (List.mem_cons.mpr ((List.mem_cons.mp hp).imp_right
          (List.mem_cons_of_mem a))))
      refine ⟨h', (While.run_next hbody).trans hrun, hbrk.trans hbrk₁, ?_⟩
      intro p
      rw [hcell']
      by_cases hpa : p = a
      · subst hpa
        rw [if_pos List.mem_cons_self, hcell₁, update_self, ite_self]
      · rw [hkeep p hpa]
        simp [hpa]

/-- What `clear` does to a ring: its nodes are deleted, the sentry is as it was. -/
theorem InRing.clear (i : InRing σ as) :
    ∃ heap, σ.clear = some ⟨heap, fun _ => none, σ.sentryNode, 0⟩ ∧
      heap.brk = σ.heap.brk ∧ ∀ p, heap.cell p = if p ∈ as then none else σ.heap.cell p := by
  obtain ⟨heap, hrun, hbrk, hcell⟩ :=
    clearLoop_ring (show RingOf σ ([] ++ as) from i.ring) (fun _ _ => rfl)
  refine ⟨heap, ?_, hbrk, hcell⟩
  simp only [LRUContainers.clear, Ring.next_sentry i.ring, hrun, Option.bind_eq_bind,
    Option.bind_some, Except.toOption, Option.pure_def]

/-- Clearing an empty ring. -/
theorem InRing.clear_nil (i : InRing σ []) (h : σ.clear = some σ') :
    InRing σ' [] ∧ (∀ k, σ'.nodeMap k = none) ∧ σ'.size = 0 := by
  obtain ⟨heap, hclear, -, hcell⟩ := i.clear
  rw [h, Option.some_inj] at hclear
  subst hclear
  have hsame : heap.cell = σ.heap.cell := by
    funext p
    rw [hcell, if_neg List.not_mem_nil]
  refine ⟨⟨?_, ?_, rfl, ?_, ?_⟩, fun _ => rfl, rfl⟩
  · apply Ring.congr _ _ i.ring
    · intro p _
      rw [nextOf, nextOf, Heap.load, Heap.load, hsame]
    · intro p _
      rw [preOf, preOf, Heap.load, Heap.load, hsame]
  · intro p
    rw [← i.owned p]
    simp only [Live, hsame]
  · intro k p hp
    cases hp
  · rw [← i.blank, entryOf, entryOf, Heap.load, Heap.load, hsame]

/-- Clearing a ring with nodes leaves the sentry linked to the first of them, which is
deleted. -/
theorem InRing.clear_cons {a : Ptr} (i : InRing σ (a :: as)) (h : σ.clear = some σ') :
    Stale σ' := by
  obtain ⟨heap, hclear, hbrk, hcell⟩ := i.clear
  rw [h, Option.some_inj] at hclear
  subst hclear
  obtain ⟨node, hnode⟩ := (i.owned a).mpr (List.mem_cons_of_mem _ List.mem_cons_self)
  have hsentry : σ.sentryNode ∉ a :: as := (List.nodup_cons.mp i.ring.nodup).1
  refine ⟨⟨a, ?_, ?_, ?_⟩, rfl, fun _ => rfl⟩
  · show nextOf heap σ.sentryNode = some a
    have hnext : nextOf σ.heap σ.sentryNode = some a := Ring.next_sentry i.ring
    rw [← hnext, nextOf, nextOf, Heap.load, Heap.load, hcell, if_neg hsentry]
  · show a < heap.brk
    rw [hbrk]
    exact σ.heap.lt_brk hnode
  · show heap.cell a = none
    rw [hcell, if_pos List.mem_cons_self]

/-! ## A stale container -/

namespace Stale

variable [DecidableEq K]

omit [Inhabited K] [Inhabited V] [DecidableEq K] in
theorem not_linked (s : Stale σ) : ¬ Linked σ := by
  rintro ⟨p, hp, node, hnode⟩
  obtain ⟨q, hq, -, hdead⟩ := s.lost
  rw [hp, Option.some_inj] at hq
  rw [← hq, hnode] at hdead
  cases hdead

omit [Inhabited K] [Inhabited V] [DecidableEq K] in
/-- Nothing can be put in front. -/
theorem addToHead_none (s : Stale σ) (k : K) (v : V) :
    let new := σ.heap.alloc { key := k, value := v }
    { σ with heap := new.2 }.insertToHead new.1 = none := by
  intro new
  obtain ⟨p, hnext, hlt, hdead⟩ := s.lost
  obtain ⟨node, hnode⟩ := live_of_nextOf hnext
  have hsentry : σ.sentryNode ≠ new.1 := Nat.ne_of_lt (σ.heap.lt_brk hnode)
  have hp : p ≠ new.1 := Nat.ne_of_lt hlt
  have hcell : new.2.cell = update σ.heap.cell new.1 (some { key := k, value := v }) :=
    Heap.alloc_cell _ _
  refine insertToHead_none (σ := { σ with heap := new.2 }) (p := p) ?_ ?_ ?_ hsentry.symm
  · rw [← hnext]
    show nextOf new.2 σ.sentryNode = _
    rw [nextOf, nextOf, Heap.load, Heap.load, hcell, update_of_ne hsentry]
  · rintro ⟨node', hnode'⟩
    have hnone : new.2.cell p = none := by rw [hcell, update_of_ne hp, hdead]
    rw [show new.2.cell p = some node' from hnode'] at hnone
    cases hnone
  · exact ⟨_, by rw [hcell, update_self]⟩

omit [Inhabited K] [Inhabited V] in
theorem put_none (s : Stale σ) (k : K) (v : V) : σ.put k v = none := by
  have hnone := s.addToHead_none k v
  dsimp only at hnone
  simp [LRUContainers.put, s.nodeMap k, hnone]

omit [Inhabited K] [Inhabited V] in
theorem putMove_none (s : Stale σ) (k : K) (v : V) (residual : K) :
    σ.putMove k v residual = none := by
  have hnone := s.addToHead_none k v
  dsimp only at hnone
  simp [LRUContainers.putMove, s.nodeMap k, hnone]

omit [Inhabited K] [Inhabited V] [DecidableEq K] in
/-- Clearing once more follows the link to the deleted node. -/
theorem clear_none (s : Stale σ) : σ.clear = none := by
  obtain ⟨p, hnext, -, hdead⟩ := s.lost
  obtain ⟨node, hnode⟩ := live_of_nextOf hnext
  have hne : p ≠ σ.sentryNode := by
    rintro rfl
    rw [hnode] at hdead
    cases hdead
  have hload : nextOf σ.heap p = none := by
    rw [nextOf, Heap.load, hdead]
    rfl
  have hrun : (LRUContainers.clearLoop σ.sentryNode).run (σ.heap, p) = .error () := by
    apply While.run_fault
    simp only [LRUContainers.clearLoop, if_neg hne, LRUContainers.clearRound, hload,
      Option.bind_eq_bind, Option.bind_none]
  simp only [LRUContainers.clear, hnext, hrun, Option.bind_eq_bind, Option.bind_some,
    Except.toOption, Option.bind_none]

end Stale

/-! ## Runs -/

variable [DecidableEq K]

/-- A call leaves a ring a ring, or clears it for good. -/
theorem InRing.exec {c : MethodCall K V} {o : MethodAnswer V} (i : InRing σ as)
    (h : (methods K V).exec σ c = some (σ', o)) : Settled σ' := by
  cases c with
  | put k v =>
      obtain ⟨τ, hput, hτ⟩ := Option.map_eq_some_iff.mp h
      cases hτ
      exact .inl (i.put hput)
  | putMove k v residual =>
      obtain ⟨τ, hput, hτ⟩ := Option.map_eq_some_iff.mp h
      cases hτ
      exact .inl (i.putMove hput)
  | get k v =>
      obtain ⟨⟨τ, b, w⟩, hget, hτ⟩ := Option.map_eq_some_iff.mp h
      cases hτ
      exact .inl (i.get hget)
  | removeLast =>
      obtain ⟨τ, hremove, hτ⟩ := Option.map_eq_some_iff.mp h
      cases hτ
      exact .inl (i.removeLast hremove)
  | size =>
      cases h
      exact .inl ⟨as, i⟩
  | clear =>
      obtain ⟨τ, hclear, hτ⟩ := Option.map_eq_some_iff.mp h
      cases hτ
      cases as with
      | nil => exact .inl ⟨[], (i.clear_nil hclear).1⟩
      | cons a as => exact .inr (i.clear_cons hclear)

/-- A call on a stale container changes nothing. -/
theorem Stale.exec {c : MethodCall K V} {o : MethodAnswer V} (s : Stale σ)
    (h : (methods K V).exec σ c = some (σ', o)) : σ' = σ := by
  cases c with
  | put k v =>
      obtain ⟨τ, hput, -⟩ := Option.map_eq_some_iff.mp h
      rw [s.put_none] at hput
      cases hput
  | putMove k v residual =>
      obtain ⟨τ, hput, -⟩ := Option.map_eq_some_iff.mp h
      rw [s.putMove_none] at hput
      cases hput
  | get k v =>
      obtain ⟨r, hget, hr⟩ := Option.map_eq_some_iff.mp h
      rw [get_miss (s.nodeMap k)] at hget
      cases hget
      cases hr
      rfl
  | removeLast =>
      obtain ⟨τ, hremove, hτ⟩ := Option.map_eq_some_iff.mp h
      rw [LRUContainers.removeLast, if_pos s.size] at hremove
      cases hremove
      cases hτ
      rfl
  | size =>
      cases h
      rfl
  | clear =>
      obtain ⟨τ, hclear, -⟩ := Option.map_eq_some_iff.mp h
      rw [s.clear_none] at hclear
      cases hclear

/-- **What holds between any two calls.** -/
theorem methods_settled (hσ : MethodsReachable σ) : Settled σ := by
  refine TSys.Inductive.invariant (I := Settled) ⟨?_, ?_⟩ σ hσ
  · rintro τ rfl
    exact .inl ⟨[], construct_inRing⟩
  · rintro τ c τ' hτ ⟨-, o, hexec⟩
    rcases hτ with ⟨as, i⟩ | s
    · exact i.exec hexec
    · rw [s.exec hexec]
      exact .inr s

end Invariant
end LearnSpace.Cache
