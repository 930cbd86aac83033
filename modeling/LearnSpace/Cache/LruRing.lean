import LearnSpace.Keel.Index
import LearnSpace.Keel.Linked
import LearnSpace.Keel.Recency
import LearnSpace.Cache.Lru

/-!
# The ring, the map and the counter

`Rep σ as l` ties the three pieces of an `LRUContainers` to a recency list:
the nodes `as` are a ring around the sentry, hold the pairs `l` in order, are
exactly what the map points to, are the only live cells beside the sentry,
and are counted by `size` (modulo the width of the counter). Each method has
one lemma that says what it does to `as` and `l`.
-/

namespace LearnSpace.Cache

open Keel Function

variable {K V : Type}

/-! ## Link stores -/

/-- `p` points to a live node. -/
def Live (h : Heap (LRUNode K V)) (p : Ptr) : Prop := ∃ node, h.cell p = some node

theorem live_of_nextOf {h : Heap (LRUNode K V)} {p q : Ptr} (hp : nextOf h p = some q) :
    Live h p := by
  obtain ⟨node, hnode, _⟩ := Option.map_eq_some_iff.mp hp
  exact ⟨node, hnode⟩

theorem live_iff_entryOf {h : Heap (LRUNode K V)} {p : Ptr} :
    Live h p ↔ (entryOf h p).isSome := by
  simp [Live, entryOf, Heap.load, Option.isSome_iff_exists]

/-- `h'` has the links `next` and `pre` and the entries of `h`. -/
structure Relinks (h h' : Heap (LRUNode K V)) (next pre : Ptr → Option Ptr) : Prop where
  next : nextOf h' = next
  pre : preOf h' = pre
  entry : entryOf h' = entryOf h

theorem Relinks.live {h h' : Heap (LRUNode K V)} {next pre : Ptr → Option Ptr}
    (r : Relinks h h' next pre) (p : Ptr) : Live h' p ↔ Live h p := by
  rw [live_iff_entryOf, live_iff_entryOf, r.entry]

theorem setNext_spec {h : Heap (LRUNode K V)} {p : Ptr} (hp : Live h p) (q : Ptr) :
    ∃ h', setNext h p q = some h' ∧
      Relinks h h' (update (nextOf h) p (some q)) (preOf h) := by
  obtain ⟨node, hnode⟩ := hp
  obtain ⟨h', hmod, -, -⟩ := Heap.modify_eq hnode (fun n => { n with nextNode := q })
  have hnext : h'.field LRUNode.nextNode = update (h.field LRUNode.nextNode) p (some q) :=
    Heap.field_modify hmod (fun _ => rfl)
  have hpre : h'.field LRUNode.preNode = h.field LRUNode.preNode :=
    Heap.field_modify_keep hmod (fun _ => rfl)
  have hentry : h'.field (fun n => (n.key, n.value)) = h.field (fun n => (n.key, n.value)) :=
    Heap.field_modify_keep hmod (fun _ => rfl)
  exact ⟨h', hmod, hnext, hpre, hentry⟩

theorem setPre_spec {h : Heap (LRUNode K V)} {p : Ptr} (hp : Live h p) (q : Ptr) :
    ∃ h', setPre h p q = some h' ∧
      Relinks h h' (nextOf h) (update (preOf h) p (some q)) := by
  obtain ⟨node, hnode⟩ := hp
  obtain ⟨h', hmod, -, -⟩ := Heap.modify_eq hnode (fun n => { n with preNode := q })
  have hnext : h'.field LRUNode.nextNode = h.field LRUNode.nextNode :=
    Heap.field_modify_keep hmod (fun _ => rfl)
  have hpre : h'.field LRUNode.preNode = update (h.field LRUNode.preNode) p (some q) :=
    Heap.field_modify hmod (fun _ => rfl)
  have hentry : h'.field (fun n => (n.key, n.value)) = h.field (fun n => (n.key, n.value)) :=
    Heap.field_modify_keep hmod (fun _ => rfl)
  exact ⟨h', hmod, hnext, hpre, hentry⟩

/-! ## Pointer surgery on the ring -/

/-- The nodes `as` are the ring of `σ`. -/
def RingOf (σ : LRUContainers K V) (as : List Ptr) : Prop :=
  Ring (nextOf σ.heap) (preOf σ.heap) σ.sentryNode as

theorem RingOf.live {σ : LRUContainers K V} {as : List Ptr} (h : RingOf σ as) {p : Ptr}
    (hp : p ∈ σ.sentryNode :: as) : Live σ.heap p := by
  rcases List.mem_cons.mp hp with rfl | hmem
  · exact live_of_nextOf h.next_sentry
  · obtain ⟨xs, ys, rfl⟩ := List.append_of_mem hmem
    exact live_of_nextOf h.next_of_mem

theorem insertToHead_spec {σ : LRUContainers K V} {as : List Ptr} {node : Ptr}
    (h : RingOf σ as) (hlive : Live σ.heap node) (hnode : node ∉ σ.sentryNode :: as) :
    ∃ heap, σ.insertToHead node = some { σ with heap := heap } ∧
      RingOf { σ with heap := heap } (node :: as) ∧ entryOf heap = entryOf σ.heap := by
  have hs : nextOf σ.heap σ.sentryNode = some (as.headD σ.sentryNode) := h.next_sentry
  have hq : as.headD σ.sentryNode ∈ σ.sentryNode :: as := Chain.succ_mem _ [] as
  have hns : node ≠ σ.sentryNode := fun he => hnode (he ▸ List.mem_cons_self)
  -- the four assignments in order; each relinks one cell
  obtain ⟨h1, e1, r1⟩ := setNext_spec hlive (as.headD σ.sentryNode)
  obtain ⟨h2, e2, r2⟩ := setPre_spec ((r1.live node).mpr hlive) σ.sentryNode
  obtain ⟨h3, e3, r3⟩ := setNext_spec
    ((r2.live σ.sentryNode).mpr ((r1.live _).mpr (h.live List.mem_cons_self))) node
  have hnext : nextOf h3 node = some (as.headD σ.sentryNode) := by
    rw [r3.next, update_of_ne hns, r2.next, r1.next, update_self]
  obtain ⟨h4, e4, r4⟩ := setPre_spec
    ((r3.live _).mpr ((r2.live _).mpr ((r1.live _).mpr (h.live hq)))) node
  refine ⟨h4, ?_, ?_, ?_⟩
  · simp only [LRUContainers.insertToHead, hs, e1, e2, e3, hnext, e4,
      Option.bind_eq_bind, Option.bind_some]
    rfl
  · have hring := Ring.linkHead h hnode
    show Ring (nextOf h4) (preOf h4) σ.sentryNode (node :: as)
    rw [r4.next, r4.pre, r3.next, r3.pre, r2.next, r2.pre, r1.next, r1.pre, ← hs]
    exact hring
  · rw [r4.entry, r3.entry, r2.entry, r1.entry]

theorem setPre_none {h : Heap (LRUNode K V)} {p : Ptr} (hp : ¬ Live h p) (q : Ptr) :
    setPre h p q = none := by
  have hcell : h.cell p = none := by
    apply Option.eq_none_iff_forall_ne_some.mpr
    intro node hnode
    exact hp ⟨node, hnode⟩
  rw [setPre, Heap.modify, Heap.load, hcell]
  rfl

/-- A sentry that links to a deleted node keeps anything from being put in front. -/
theorem insertToHead_none {σ : LRUContainers K V} {node p : Ptr}
    (hs : nextOf σ.heap σ.sentryNode = some p) (hp : ¬ Live σ.heap p)
    (hlive : Live σ.heap node) (hns : node ≠ σ.sentryNode) : σ.insertToHead node = none := by
  obtain ⟨h1, e1, r1⟩ := setNext_spec hlive p
  obtain ⟨h2, e2, r2⟩ := setPre_spec ((r1.live node).mpr hlive) σ.sentryNode
  obtain ⟨h3, e3, r3⟩ := setNext_spec
    ((r2.live σ.sentryNode).mpr ((r1.live _).mpr (live_of_nextOf hs))) node
  have hnext : nextOf h3 node = some p := by
    rw [r3.next, update_of_ne hns, r2.next, r1.next, update_self]
  have hdead : ¬ Live h3 p := by
    rw [r3.live, r2.live, r1.live]
    exact hp
  simp only [LRUContainers.insertToHead, hs, e1, e2, e3, hnext, setPre_none hdead,
    Option.bind_eq_bind, Option.bind_some, Option.bind_none]

theorem moveNodeToHead_spec {σ : LRUContainers K V} {xs ys : List Ptr} {node : Ptr}
    (h : RingOf σ (xs ++ node :: ys)) :
    ∃ heap, σ.moveNodeToHead node = some { σ with heap := heap } ∧
      RingOf { σ with heap := heap } (node :: (xs ++ ys)) ∧
      entryOf heap = entryOf σ.heap := by
  have hpre : preOf σ.heap node = some (xs.getLastD σ.sentryNode) := h.prev_of_mem
  have hnext : nextOf σ.heap node = some (ys.headD σ.sentryNode) := h.next_of_mem
  by_cases hfirst : xs.getLastD σ.sentryNode = σ.sentryNode
  · -- already first
    obtain rfl := Ring.first_of_pred_sentry h hfirst
    refine ⟨σ.heap, ?_, h, rfl⟩
    simp [LRUContainers.moveNodeToHead, hpre]
  · -- unlink it, then link it behind the sentry
    have hnode : node ∉ σ.sentryNode :: (xs ++ ys) := Ring.not_mem_rest h
    have hnp : node ≠ xs.getLastD σ.sentryNode :=
      fun he => hnode (he ▸ Chain.pred_mem σ.sentryNode xs ys)
    obtain ⟨h1, e1, r1⟩ := setNext_spec (h.live (Chain.pred_mem σ.sentryNode xs _))
      (ys.headD σ.sentryNode)
    have hnext1 : nextOf h1 node = some (ys.headD σ.sentryNode) := by
      rw [r1.next, update_of_ne hnp, hnext]
    have hpre1 : preOf h1 node = some (xs.getLastD σ.sentryNode) := by
      rw [r1.pre, hpre]
    have hq : Live σ.heap (ys.headD σ.sentryNode) := h.live (by
      rw [List.append_cons]
      exact Chain.succ_mem σ.sentryNode (xs ++ [node]) ys)
    obtain ⟨h2, e2, r2⟩ := setPre_spec ((r1.live _).mpr hq) (xs.getLastD σ.sentryNode)
    have hout : RingOf { σ with heap := h2 } (xs ++ ys) := by
      have := Ring.unlink h
      rw [hnext, hpre, ← r1.next, ← r1.pre] at this
      show Ring (nextOf h2) (preOf h2) σ.sentryNode (xs ++ ys)
      rw [r2.next, r2.pre]
      exact this
    have hnodeLive : Live h2 node := by
      rw [r2.live, r1.live]
      exact live_of_nextOf hnext
    obtain ⟨heap, e3, hring, hentry⟩ := insertToHead_spec hout hnodeLive hnode
    refine ⟨heap, ?_, hring, ?_⟩
    · simp only [LRUContainers.moveNodeToHead, hpre, hnext, Option.bind_eq_bind,
        Option.bind_some, if_neg hfirst, e1, hnext1, hpre1, e2]
      exact e3
    · rw [hentry, r2.entry, r1.entry]

/-! ## The representation invariant -/

/-- `σ` holds the recency list `l` in the ring nodes `as`. -/
structure Rep (σ : LRUContainers K V) (as : List Ptr) (l : List (K × V)) : Prop where
  ring : RingOf σ as
  entries : as.map (entryOf σ.heap) = l.map some
  filed : Indexes σ.nodeMap as (entryOf σ.heap)
  counted : σ.size = l.length % uintSize
  owned : ∀ p, Live σ.heap p ↔ p ∈ σ.sentryNode :: as

namespace Rep

variable {σ : LRUContainers K V} {as : List Ptr} {l : List (K × V)}

/-- An entry of the list sits in a ring node. -/
theorem node_of_entry (h : Rep σ as l) {e : K × V} (he : e ∈ l) :
    ∃ p ∈ as, entryOf σ.heap p = some e := by
  have hmem : some e ∈ as.map (entryOf σ.heap) := by
    rw [h.entries]
    exact List.mem_map_of_mem he
  exact List.mem_map.mp hmem

/-- The node of a resident key, and where its entry stands in the list. -/
theorem split_at (h : Rep σ as l) {k : K} {p : Ptr} (hp : σ.nodeMap k = some p) :
    ∃ xs ys ls rs v, as = xs ++ p :: ys ∧ l = ls ++ (k, v) :: rs ∧
      xs.map (entryOf σ.heap) = ls.map some ∧ ys.map (entryOf σ.heap) = rs.map some ∧
      entryOf σ.heap p = some (k, v) := by
  obtain ⟨hmem, v, hv⟩ := (h.filed k p).mp hp
  obtain ⟨xs, ys, rfl⟩ := List.append_of_mem hmem
  have hent := h.entries
  rw [List.map_append, List.map_cons, hv] at hent
  obtain ⟨ls, l', rfl, hls, hl'⟩ := List.map_eq_append_iff.mp hent.symm
  obtain ⟨e, rs, rfl, he, hrs⟩ := List.map_eq_cons_iff.mp hl'
  cases he
  exact ⟨xs, ys, ls, rs, v, rfl, rfl, hls.symm, hrs.symm, hv⟩

/-- The entry found for a key is the one in its node: none of the same key
stands before it. -/
theorem key_notin (h : Rep σ as l) {k : K} {v : V} {p : Ptr} {xs ys : List Ptr}
    {ls : List (K × V)} (has : as = xs ++ p :: ys) (hv : entryOf σ.heap p = some (k, v))
    (hls : xs.map (entryOf σ.heap) = ls.map some) : k ∉ ls.map Prod.fst := by
  intro hk
  obtain ⟨⟨k', w⟩, he, rfl⟩ := List.mem_map.mp hk
  have hmem : some (k', w) ∈ xs.map (entryOf σ.heap) := by
    rw [hls]
    exact List.mem_map_of_mem he
  obtain ⟨q, hq, hqe⟩ := List.mem_map.mp hmem
  subst has
  have hqp : q = p := h.filed.cell_unique (List.mem_append_left _ hq) (by simp) hqe hv
  subst hqp
  exact Ring.not_mem_rest h.ring (List.mem_cons_of_mem _ (List.mem_append_left _ hq))

/-- The map has a key exactly when the list does. -/
theorem resident_iff [DecidableEq K] (h : Rep σ as l) (k : K) :
    σ.Resident k ↔ k ∈ l.map Prod.fst := by
  constructor
  · intro hk
    obtain ⟨p, hp⟩ := Option.ne_none_iff_exists'.mp hk
    obtain ⟨xs, ys, ls, rs, v, _, rfl, _⟩ := h.split_at hp
    simp
  · intro hk
    obtain ⟨⟨k', v⟩, he, rfl⟩ := List.mem_map.mp hk
    obtain ⟨p, hp, hv⟩ := h.node_of_entry he
    rw [LRUContainers.Resident, h.filed.find_eq hp hv]
    exact Option.some_ne_none p

theorem lookup_eq_none [DecidableEq K] (h : Rep σ as l) {k : K} (hk : σ.nodeMap k = none) :
    Recency.lookup l k = none := by
  rw [Recency.lookup_eq_none_iff, ← h.resident_iff k]
  exact fun hres => hres hk

end Rep

/-! ## What each method does to the list -/

section Methods

variable [DecidableEq K] {σ : LRUContainers K V} {as : List Ptr} {l : List (K × V)}

omit [DecidableEq K] in
/-- A fresh container holds the empty list. -/
theorem construct_rep [Inhabited K] [Inhabited V] :
    Rep (LRUContainers.construct : LRUContainers K V) [] [] where
  ring := by
    refine ⟨List.nodup_singleton _, ?_, ?_⟩
    · simp [LRUContainers.construct, nextOf, Heap.load, Heap.alloc]
    · simp [LRUContainers.construct, preOf, Heap.load, Heap.alloc]
  entries := rfl
  filed := by
    intro k p
    simp [LRUContainers.construct]
  counted := rfl
  owned := by
    intro p
    simp [Live, LRUContainers.construct, Heap.alloc, Heap.empty, Function.update_apply]

/-- Moving the node of a resident key to the head touches the key. -/
theorem touch_rep (h : Rep σ as l) {k : K} {p : Ptr} (hp : σ.nodeMap k = some p) :
    ∃ σ' as' v, σ.moveNodeToHead p = some σ' ∧ Recency.lookup l k = some v ∧
      entryOf σ.heap p = some (k, v) ∧ Rep σ' as' (Recency.touch l k) := by
  obtain ⟨xs, ys, ls, rs, v, has, hl, hls, hrs, hv⟩ := h.split_at hp
  have hk : k ∉ ls.map Prod.fst := h.key_notin has hv hls
  subst has hl
  obtain ⟨heap, hmove, hring, hentry⟩ := moveNodeToHead_spec h.ring
  refine ⟨_, p :: (xs ++ ys), v, hmove, Recency.lookup_split v hk, hv, ?_⟩
  rw [Recency.touch_split v hk]
  -- the nodes are the same, in another order
  have hperm : (p :: (xs ++ ys)).Perm (xs ++ p :: ys) := List.perm_middle.symm
  refine ⟨hring, ?_, ?_, ?_, ?_⟩
  · simp only [hentry, List.map_cons, List.map_append, hls, hrs, hv]
  · rw [hentry]
    exact h.filed.perm hperm
  · rw [List.perm_middle.symm.length_eq]
    exact h.counted
  · intro q
    show Live heap q ↔ _
    rw [live_iff_entryOf, hentry, ← live_iff_entryOf, h.owned q, List.mem_cons,
      List.mem_cons, hperm.mem_iff]

/-- `get` of a resident key answers its value and touches it. -/
theorem get_hit (h : Rep σ as l) {k : K} {p : Ptr} (hp : σ.nodeMap k = some p) (w : V) :
    ∃ σ' as' v, σ.get k w = some (σ', true, v) ∧ Recency.lookup l k = some v ∧
      Rep σ' as' (Recency.touch l k) := by
  obtain ⟨σ', as', v, hmove, hlk, hv, hrep⟩ := touch_rep h hp
  refine ⟨σ', as', v, ?_, hlk, hrep⟩
  simp [LRUContainers.get, hp, hv, hmove]

omit [DecidableEq K] in
/-- `get` of any other key answers false and changes nothing. -/
theorem get_miss {k : K} (hk : σ.nodeMap k = none) (w : V) :
    σ.get k w = some (σ, false, w) := by
  simp [LRUContainers.get, hk]

omit [DecidableEq K] in
/-- Allocating a node: its address is new, the ring does not notice. -/
theorem alloc_ring (hring : RingOf σ as)
    (howned : ∀ p, Live σ.heap p ↔ p ∈ σ.sentryNode :: as) (k : K) (v : V) :
    let new := σ.heap.alloc { key := k, value := v }
    new.1 ∉ σ.sentryNode :: as ∧ Live new.2 new.1 ∧ RingOf { σ with heap := new.2 } as ∧
      entryOf new.2 = update (entryOf σ.heap) new.1 (some (k, v)) := by
  intro new
  have hcell : new.2.cell = update σ.heap.cell new.1 (some { key := k, value := v }) :=
    Heap.alloc_cell _ _
  have hfresh : new.1 ∉ σ.sentryNode :: as := by
    intro hmem
    obtain ⟨node, hnode⟩ := (howned _).mpr hmem
    rw [Heap.alloc_fresh] at hnode
    cases hnode
  refine ⟨hfresh, ⟨_, by rw [hcell, update_self]⟩, ?_, ?_⟩
  · refine Ring.congr ?_ ?_ hring <;> intro p hp <;>
      simp [nextOf, preOf, Heap.load, hcell,
        update_of_ne (fun he : p = new.1 => hfresh (he ▸ hp))]
  · funext p
    by_cases hp : p = new.1 <;> simp [entryOf, Heap.load, hcell, hp]

omit [DecidableEq K] in
/-- A node that is made and put in front. -/
theorem addToHead_spec (hring : RingOf σ as)
    (howned : ∀ p, Live σ.heap p ↔ p ∈ σ.sentryNode :: as) (k : K) (v : V) :
    let new := σ.heap.alloc { key := k, value := v }
    ∃ heap, { σ with heap := new.2 }.insertToHead new.1 = some { σ with heap := heap } ∧
      RingOf { σ with heap := heap } (new.1 :: as) ∧ new.1 ∉ σ.sentryNode :: as ∧
      entryOf heap = update (entryOf σ.heap) new.1 (some (k, v)) ∧
      ∀ p, Live heap p ↔ p ∈ σ.sentryNode :: new.1 :: as := by
  intro new
  obtain ⟨hfresh, hlive, hring₁, hent⟩ := alloc_ring hring howned k v
  obtain ⟨heap, hins, hring', hentry⟩ := insertToHead_spec hring₁ hlive hfresh
  have hent' : entryOf heap = update (entryOf σ.heap) new.1 (some (k, v)) := hentry.trans hent
  refine ⟨heap, hins, hring', hfresh, hent', ?_⟩
  intro p
  rw [live_iff_entryOf, hent']
  by_cases hp : p = new.1
  · simp [hp]
  · rw [update_of_ne hp, ← live_iff_entryOf, howned p]
    simp [hp]

/-- `put` of a key that is not resident conses its pair. -/
theorem put_new (h : Rep σ as l) {k : K} (hk : σ.nodeMap k = none) (v : V) :
    ∃ σ' p, σ.put k v = some σ' ∧ Rep σ' (p :: as) ((k, v) :: l) := by
  obtain ⟨heap, hins, hring, hfresh, hent, howned⟩ := addToHead_spec h.ring h.owned k v
  set new := σ.heap.alloc { key := k, value := v } with hnew
  have hnot : new.1 ∉ as := fun hmem => hfresh (List.mem_cons_of_mem _ hmem)
  refine ⟨⟨heap, update σ.nodeMap k (some new.1), σ.sentryNode, (σ.size + 1) % uintSize⟩,
    new.1, ?_, hring, ?_, ?_, ?_, howned⟩
  · simp [LRUContainers.put, hk, ← hnew, hins]
  · show (new.1 :: as).map (entryOf heap) = _
    rw [List.map_cons, List.map_cons, hent, update_self, map_update_of_notMem hnot, h.entries]
  · show Indexes (update σ.nodeMap k (some new.1)) _ (entryOf heap)
    rw [hent]
    exact h.filed.insert hk hnot v
  · show (σ.size + 1) % uintSize = _
    rw [h.counted, List.length_cons, Nat.mod_add_mod]

/-- The surgery of `removeLast` on a ring that ends in `p`: the node is out
of the ring, its cell is freed, nothing else moves. -/
theorem unlinkLast {xs : List Ptr} {p : Ptr} {k : K} {v : V} (h : RingOf σ (xs ++ [p]))
    (howned : ∀ q, Live σ.heap q ↔ q ∈ σ.sentryNode :: (xs ++ [p]))
    (hv : entryOf σ.heap p = some (k, v)) (hsize : σ.size ≠ 0) :
    ∃ heap, σ.removeLast = some ⟨heap, update σ.nodeMap k none, σ.sentryNode,
        (σ.size + (uintSize - 1)) % uintSize⟩ ∧
      RingOf { σ with heap := heap } xs ∧
      entryOf heap = update (entryOf σ.heap) p none ∧
      ∀ q, Live heap q ↔ q ∈ σ.sentryNode :: xs := by
  have hlast : preOf σ.heap σ.sentryNode = some p := by
    simpa using Ring.prev_sentry h
  have hpre : preOf σ.heap p = some (xs.getLastD σ.sentryNode) := Ring.prev_of_mem h
  obtain ⟨h1, e1, r1⟩ := setNext_spec (h.live (Chain.pred_mem σ.sentryNode xs _))
    σ.sentryNode
  have hpre1 : preOf h1 p = some (xs.getLastD σ.sentryNode) := by rw [r1.pre, hpre]
  obtain ⟨h2, e2, r2⟩ := setPre_spec
    ((r1.live _).mpr (h.live (List.mem_cons_self (a := σ.sentryNode))))
    (xs.getLastD σ.sentryNode)
  have hent2 : entryOf h2 = entryOf σ.heap := by rw [r2.entry, r1.entry]
  -- the node is still live when its key is read and when it is freed
  obtain ⟨node, hnode⟩ : Live h2 p := by
    rw [live_iff_entryOf, hent2, hv]
    rfl
  obtain ⟨h3, e3, hcell⟩ := Heap.free_eq hnode
  have hout : p ∉ σ.sentryNode :: xs := by
    have := Ring.not_mem_rest h
    rwa [List.append_nil] at this
  have hring : Ring (nextOf h2) (preOf h2) σ.sentryNode xs := by
    have := Ring.unlink h
    rw [hpre, Ring.next_of_mem h, ← r1.pre] at this
    rw [r2.next, r2.pre, r1.next]
    simpa using this
  have hentry : entryOf h3 = update (entryOf σ.heap) p none := by
    rw [← hent2]
    funext q
    by_cases hq : q = p <;> simp [entryOf, Heap.load, hcell, hq]
  refine ⟨h3, ?_, ?_, hentry, ?_⟩
  · simp only [LRUContainers.removeLast, if_neg hsize, hlast, hpre, e1, hpre1, e2, hent2, hv,
      e3, Option.bind_eq_bind, Option.bind_some]
    rfl
  · refine Ring.congr ?_ ?_ hring <;> intro q hq <;>
      simp [nextOf, preOf, Heap.load, hcell,
        update_of_ne (fun he : q = p => hout (he ▸ hq))]
  · intro q
    rw [live_iff_entryOf, hentry]
    by_cases hq : q = p
    · rw [hq, update_self]
      simpa using hout
    · rw [update_of_ne hq, ← live_iff_entryOf, howned q]
      simp [hq]

/-- The counter is decreased modulo `uintSize`. -/
theorem uint_pred {n m : Nat} (hn : n = (m + 1) % uintSize) :
    (n + (uintSize - 1)) % uintSize = m % uintSize := by
  unfold uintSize at hn ⊢
  omega

/-- `removeLast` of a counted list drops its last pair. -/
theorem removeLast_rep (h : Rep σ as l) (hsize : σ.size ≠ 0) :
    ∃ σ', σ.removeLast = some σ' ∧ Rep σ' as.dropLast l.dropLast := by
  have hne : l ≠ [] := by
    rintro rfl
    exact hsize h.counted
  obtain ⟨ls, ⟨k, v⟩, rfl⟩ : ∃ ls e, l = ls ++ [e] :=
    ⟨l.dropLast, l.getLast hne, (List.dropLast_append_getLast hne).symm⟩
  have hent := h.entries
  rw [List.map_append] at hent
  obtain ⟨xs, as', rfl, hxs, has'⟩ := List.map_eq_append_iff.mp hent
  obtain ⟨p, bs, rfl, hp, hbs⟩ := List.map_eq_cons_iff.mp has'
  obtain rfl := List.map_eq_nil_iff.mp hbs
  obtain ⟨heap, hrem, hring, hentry, howned⟩ := unlinkLast h.ring h.owned hp hsize
  have hout : p ∉ σ.sentryNode :: (xs ++ []) := Ring.not_mem_rest h.ring
  rw [List.append_nil] at hout
  have hnot : p ∉ xs := fun hmem => hout (List.mem_cons_of_mem _ hmem)
  refine ⟨_, hrem, ?_⟩
  rw [List.dropLast_concat, List.dropLast_concat]
  refine ⟨hring, ?_, ?_, ?_, howned⟩
  · show xs.map (entryOf heap) = _
    rw [hentry, map_update_of_notMem hnot, hxs]
  · show Indexes (update σ.nodeMap k none) _ (entryOf heap)
    rw [hentry]
    simpa using h.filed.erase hp (by simpa using hnot)
  · show (σ.size + (uintSize - 1)) % uintSize = _
    refine uint_pred ?_
    rw [h.counted, List.length_append]
    rfl

end Methods

end LearnSpace.Cache
