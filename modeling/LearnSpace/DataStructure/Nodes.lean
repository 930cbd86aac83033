import LearnSpace.Keel.Heap
import LearnSpace.Keel.Index
import LearnSpace.Keel.Linked
import LearnSpace.Keel.While
import LearnSpace.DataStructure.ContainerBase

/-!
# The nodes of the linked containers

`Queue` and `List` keep their elements in nodes of the same three fields. The first
node, at `m_head`, holds no element; `m_tail` points to the last node behind it, or
is null when there is none. `Linked` is this shape: a chain from the head node to
null by `next`, and back by `previous` from `m_tail`. The methods change it in three
ways: a node is put in at the back or the front, or one is taken out.
-/

namespace LearnSpace.DataStructure

open Keel Function

/-- `Queue::Node` and `List::Node`. -/
structure Node (T : Type) where
  data : T
  next : Ptr := null
  previous : Ptr := null

section Links

variable {T : Type}

/-- `p->data`. -/
def dataOf (h : Heap (Node T)) : Ptr → Option T := h.field Node.data

/-- `p->next`. -/
def nextOf (h : Heap (Node T)) : Ptr → Option Ptr := h.field Node.next

/-- `p->previous`. -/
def previousOf (h : Heap (Node T)) : Ptr → Option Ptr := h.field Node.previous

/-- `p->data = t`. -/
def setData (h : Heap (Node T)) (p : Ptr) (t : T) : Option (Heap (Node T)) :=
  h.modify p (fun node => { node with data := t })

/-- `p->next = q`. -/
def setNext (h : Heap (Node T)) (p q : Ptr) : Option (Heap (Node T)) :=
  h.modify p (fun node => { node with next := q })

/-- `p->previous = q`. -/
def setPrevious (h : Heap (Node T)) (p q : Ptr) : Option (Heap (Node T)) :=
  h.modify p (fun node => { node with previous := q })

/-- `new NodeT`. -/
def newNode [Inhabited T] (h : Heap (Node T)) : Ptr × Heap (Node T) :=
  h.alloc { data := default }

/-- The loop of `clear`: the nodes from a pointer on are deleted, each after its
link was read. -/
def deleteLoop : While (Heap (Node T) × Ptr) Unit (Heap (Node T)) where
  body s :=
    if s.2 = null then .ok (.inr s.1)
    else
      match nextOf s.1 s.2, s.1.free s.2 with
      | some next, some heap => .ok (.inl (heap, next))
      | _, _ => .error ()
  measure s := s.1.live.card
  decreases s s' h := by
    split at h
    · cases h
    · split at h
      · cases h
        exact Heap.card_live_free ‹_›
      · cases h

/-- The heap behind the loop of `clear`, if it comes to its end. -/
def deleteFrom (h : Heap (Node T)) (ptr : Ptr) : Option (Heap (Node T)) :=
  (deleteLoop.run (h, ptr)).toOption

end Links

/-! ## What a store does -/

section Stores

variable {T : Type} {h h' : Heap (Node T)} {p : Ptr}

/-- `h'` is `h` after a store through `p`, which leaves these fields. -/
structure Stored (h h' : Heap (Node T)) (p : Ptr) (data : Ptr → Option T)
    (next previous : Ptr → Option Ptr) : Prop where
  data : dataOf h' = data
  next : nextOf h' = next
  previous : previousOf h' = previous
  live : h'.live = h.live
  exchange : ∀ as, p ∈ as → h.Exchange h' as as

theorem setData_spec (hp : p ∈ h.live) (t : T) :
    ∃ h', setData h p t = some h' ∧
      Stored h h' p (update (dataOf h) p (some t)) (nextOf h) (previousOf h) := by
  obtain ⟨node, hnode⟩ := Heap.mem_live.mp hp
  obtain ⟨h', hmod, -, -⟩ := Heap.modify_eq hnode (fun n => { n with data := t })
  exact ⟨h', hmod, Heap.field_modify hmod (fun _ => rfl),
    Heap.field_modify_keep hmod (fun _ => rfl), Heap.field_modify_keep hmod (fun _ => rfl),
    Heap.live_modify hmod, fun _ => .modify hmod⟩

theorem setNext_spec (hp : p ∈ h.live) (q : Ptr) :
    ∃ h', setNext h p q = some h' ∧
      Stored h h' p (dataOf h) (update (nextOf h) p (some q)) (previousOf h) := by
  obtain ⟨node, hnode⟩ := Heap.mem_live.mp hp
  obtain ⟨h', hmod, -, -⟩ := Heap.modify_eq hnode (fun n => { n with next := q })
  exact ⟨h', hmod, Heap.field_modify_keep hmod (fun _ => rfl),
    Heap.field_modify hmod (fun _ => rfl), Heap.field_modify_keep hmod (fun _ => rfl),
    Heap.live_modify hmod, fun _ => .modify hmod⟩

theorem setPrevious_spec (hp : p ∈ h.live) (q : Ptr) :
    ∃ h', setPrevious h p q = some h' ∧
      Stored h h' p (dataOf h) (nextOf h) (update (previousOf h) p (some q)) := by
  obtain ⟨node, hnode⟩ := Heap.mem_live.mp hp
  obtain ⟨h', hmod, -, -⟩ := Heap.modify_eq hnode (fun n => { n with previous := q })
  exact ⟨h', hmod, Heap.field_modify_keep hmod (fun _ => rfl),
    Heap.field_modify_keep hmod (fun _ => rfl), Heap.field_modify hmod (fun _ => rfl),
    Heap.live_modify hmod, fun _ => .modify hmod⟩

theorem mem_live_of_nextOf {q : Ptr} (hp : nextOf h p = some q) : p ∈ h.live :=
  Heap.mem_live_of_field hp

theorem nextOf_null (h : Heap (Node T)) : nextOf h null = none := by
  rw [nextOf, Heap.field, Heap.load_null, Option.map_none]

theorem mem_live_of_dataOf {t : T} (hp : dataOf h p = some t) : p ∈ h.live :=
  Heap.mem_live_of_field hp

end Stores

/-! ## A new node -/

section Insert

variable {T : Type} {h h' : Heap (Node T)} {as : List Ptr} {n p : Ptr}
  {next previous : Ptr → Option Ptr} {t : T}

/-- `h'` is `h` with a new node `n` for an element, put in among the nodes `as`, which
leaves these links. -/
structure Inserted (h h' : Heap (Node T)) (as : List Ptr) (n : Ptr)
    (next previous : Ptr → Option Ptr) (t : T) : Prop where
  fresh : n ∉ h.live
  live : h'.live = insert n h.live
  data : dataOf h' = update (dataOf h) n (some t)
  next : nextOf h' = next
  previous : previousOf h' = previous
  exchange : ∀ bs, (∀ q, q ∈ bs ↔ q = n ∨ q ∈ as) → h.Exchange h' as bs

/-- The new node, before any link leads to it. -/
theorem newNode_inserted [Inhabited T] (h : Heap (Node T)) (as : List Ptr) (t : T) :
    ∃ h', setData (newNode h).2 (newNode h).1 t = some h' ∧
      Inserted h h' as (newNode h).1 (update (nextOf h) (newNode h).1 (some null))
        (update (previousOf h) (newNode h).1 (some null)) t := by
  have hlive : (newNode h).2.live = insert (newNode h).1 h.live := Heap.live_alloc h _
  have hself : (newNode h).1 ∈ (newNode h).2.live := hlive ▸ Finset.mem_insert_self _ _
  obtain ⟨h', hset, s⟩ := setData_spec hself t
  refine ⟨h', hset, Heap.notMem_live.mpr (Heap.alloc_fresh h _), s.live.trans hlive, ?_,
    s.next.trans (Heap.field_alloc _), s.previous.trans (Heap.field_alloc _), ?_⟩
  · have hdata : dataOf (newNode h).2 = update (dataOf h) (newNode h).1 (some default) :=
      Heap.field_alloc _
    rw [s.data, hdata, update_idem]
  · intro bs hbs
    exact (Heap.Exchange.alloc h _ hbs).trans (s.exchange bs ((hbs _).mpr (.inl rfl)))

namespace Inserted

theorem ne_null (i : Inserted h h' as n next previous t) : n ≠ null := by
  rintro rfl
  exact h'.null_notMem_live (i.live ▸ Finset.mem_insert_self _ _)

theorem notMem (i : Inserted h h' as n next previous t) (has : ∀ p ∈ as, p ∈ h.live) :
    n ∉ as :=
  fun hmem => i.fresh (has n hmem)

theorem mem_live (i : Inserted h h' as n next previous t) (has : ∀ p ∈ as, p ∈ h.live)
    (hp : p = n ∨ p ∈ as) : p ∈ h'.live := by
  rw [i.live, Finset.mem_insert]
  exact hp.imp_right (has p)

/-- A link forwards set among the nodes. -/
theorem setNext (i : Inserted h h' as n next previous t) (has : ∀ p ∈ as, p ∈ h.live)
    (hp : p = n ∨ p ∈ as) (q : Ptr) :
    ∃ h'', setNext h' p q = some h'' ∧
      Inserted h h'' as n (update next p (some q)) previous t := by
  obtain ⟨h'', hset, s⟩ := setNext_spec (i.mem_live has hp) q
  refine ⟨h'', hset, i.fresh, s.live.trans i.live, s.data.trans i.data, ?_,
    s.previous.trans i.previous, fun bs hbs => ?_⟩
  · rw [s.next, i.next]
  · exact (i.exchange bs hbs).trans (s.exchange bs ((hbs p).mpr hp))

/-- A link backwards set among the nodes. -/
theorem setPrevious (i : Inserted h h' as n next previous t) (has : ∀ p ∈ as, p ∈ h.live)
    (hp : p = n ∨ p ∈ as) (q : Ptr) :
    ∃ h'', setPrevious h' p q = some h'' ∧
      Inserted h h'' as n next (update previous p (some q)) t := by
  obtain ⟨h'', hset, s⟩ := setPrevious_spec (i.mem_live has hp) q
  refine ⟨h'', hset, i.fresh, s.live.trans i.live, s.data.trans i.data,
    s.next.trans i.next, ?_, fun bs hbs => ?_⟩
  · rw [s.previous, i.previous]
  · exact (i.exchange bs hbs).trans (s.exchange bs ((hbs p).mpr hp))

end Inserted

end Insert

/-! ## The loop of `clear` -/

section Delete

variable {T : Type} {h h' : Heap (Node T)} {p q : Ptr} {ps : List Ptr}

theorem deleteFrom_null (h : Heap (Node T)) : deleteFrom h null = some h := by
  rw [deleteFrom, While.run_leave (a := h)]
  · rfl
  · rfl

/-- A live node is deleted, and the loop goes on at its successor. -/
theorem deleteFrom_live (hnext : nextOf h p = some q) :
    ∃ h', h.free p = some h' ∧ deleteFrom h p = deleteFrom h' q := by
  have hp : p ∈ h.live := mem_live_of_nextOf hnext
  have hnull : p ≠ null := fun he => h.null_notMem_live (he ▸ hp)
  obtain ⟨node, hnode⟩ := Heap.mem_live.mp hp
  obtain ⟨h', hfree, -⟩ := Heap.free_eq hnode
  refine ⟨h', hfree, ?_⟩
  rw [deleteFrom, deleteFrom, While.run_next (t := (h', q))]
  simp only [deleteLoop, if_neg hnull, hnext, hfree]

/-- A dangling pointer ends the loop in a fault. -/
theorem deleteFrom_dead (hnull : p ≠ null) (hp : p ∉ h.live) : deleteFrom h p = none := by
  have hnext : nextOf h p = none := by
    rw [Option.eq_none_iff_forall_ne_some]
    exact fun q hq => hp (mem_live_of_nextOf hq)
  rw [deleteFrom, While.run_fault (e := ())]
  · rfl
  · simp only [deleteLoop, if_neg hnull, hnext]

/-- The loop deletes the nodes of a chain that ends in null, and nothing else. -/
theorem deleteFrom_chain :
    ∀ {ps : List Ptr} {p : Ptr} {h : Heap (Node T)}, (p :: ps).Nodup →
      Seg (nextOf h) p ps null →
      ∃ h', deleteFrom h p = some h' ∧ h.Exchange h' (p :: ps) [] := by
  intro ps
  induction ps with
  | nil =>
      intro p h hnd hseg
      obtain ⟨h', hfree, hdel⟩ := deleteFrom_live hseg
      refine ⟨h', hdel.trans (deleteFrom_null h'), .free hfree List.mem_cons_self ?_⟩
      simp
  | cons q ps ih =>
      intro p h hnd hseg
      obtain ⟨hp, hnd'⟩ := List.nodup_cons.mp hnd
      obtain ⟨h', hfree, hdel⟩ := deleteFrom_live hseg.1
      have hseg' : Seg (nextOf h') q ps null := by
        rw [nextOf, Heap.field_free hfree]
        exact hseg.2.update_frame hp
      obtain ⟨h'', hrest, hx⟩ := ih hnd' hseg'
      refine ⟨h'', hdel.trans hrest, (Heap.Exchange.free hfree List.mem_cons_self ?_).trans hx⟩
      intro r
      constructor
      · intro hr
        exact ⟨List.mem_cons_of_mem _ hr, fun he => hp (he ▸ hr)⟩
      · rintro ⟨hr, hne⟩
        exact (List.mem_cons.mp hr).resolve_left hne

end Delete

/-! ## The chain of the nodes -/

/-- Where the walk backwards starts: at `m_tail`, or at the head node if that is null. -/
def back (head tail : Ptr) : Ptr := if tail = null then head else tail

/-- The links backwards, with the one out of null that `m_tail` stands for. -/
def backward (previous : Ptr → Option Ptr) (head tail : Ptr) : Ptr → Option Ptr :=
  update previous null (some (back head tail))

section Linked

variable {T : Type} {h h' : Heap (Node T)} {head tail tail' n a : Ptr}
  {ps xs ys : List Ptr} {ts : List T} {t : T}

/-- The nodes `ps` behind the head node hold `ts`, linked both ways. -/
structure Linked (h : Heap (Node T)) (head tail : Ptr) (ps : List Ptr) (ts : List T) :
    Prop where
  chain : Chain (nextOf h) (backward (previousOf h) head tail) head null ps
  last : tail = ps.getLastD null
  content : ps.map (dataOf h) = ts.map some

namespace Linked

theorem length_eq (l : Linked h head tail ps ts) : ps.length = ts.length := by
  rw [← List.length_map (dataOf h), l.content, List.length_map]

theorem head_live (l : Linked h head tail ps ts) : head ∈ h.live :=
  mem_live_of_nextOf l.chain.first

theorem node_live (l : Linked h head tail ps ts) (ha : a ∈ head :: ps) : a ∈ h.live := by
  rcases List.mem_cons.mp ha with rfl | hmem
  · exact l.head_live
  · obtain ⟨xs, ys, rfl⟩ := List.append_of_mem hmem
    exact mem_live_of_nextOf l.chain.next_of_mem

theorem node_ne_null (l : Linked h head tail ps ts) (ha : a ∈ head :: ps) : a ≠ null := by
  rintro rfl
  exact h.null_notMem_live (l.node_live ha)

/-- The link backwards of a node. -/
theorem previous_of_mem (l : Linked h head tail (xs ++ a :: ys) ts) :
    previousOf h a = some (xs.getLastD head) := by
  have ha : a ≠ null := l.node_ne_null (List.mem_cons_of_mem _ (by simp))
  rw [← l.chain.prev_of_mem, backward, update_of_ne ha]

/-- The last of the first nodes, where the head node counts as none. -/
theorem head_or_last (l : Linked h head tail (xs ++ ys) ts) :
    (if xs.getLastD head = head then null else xs.getLastD head) = xs.getLastD null := by
  by_cases hfirst : xs.getLastD head = head
  · obtain rfl : xs = [] := l.chain.first_of_pred hfirst
    rw [if_pos hfirst, List.getLastD_nil]
  · rw [if_neg hfirst]
    cases xs with
    | nil => exact absurd rfl hfirst
    | cons x xs => rw [List.getLastD_cons, List.getLastD_cons]

/-- The walk backwards starts at the last node. -/
theorem back_eq (l : Linked h head tail ps ts) : back head tail = ps.getLastD head := by
  have := l.chain.last
  rwa [backward, update_self, Option.some_inj] at this

theorem tail_eq_null_iff (l : Linked h head tail ps ts) : tail = null ↔ ps = [] := by
  rw [l.last]
  refine ⟨fun he => ?_, fun he => by rw [he]; rfl⟩
  by_contra hne
  obtain ⟨xs, a, rfl⟩ := (List.eq_nil_or_concat' ps).resolve_left hne
  rw [List.getLastD_concat] at he
  exact l.node_ne_null (List.mem_cons_of_mem _ (by simp)) he

/-- The frame: the chain depends only on the fields of its nodes. -/
theorem congr (l : Linked h head tail ps ts) (hnext : ∀ p ∈ head :: ps, nextOf h' p = nextOf h p)
    (hprevious : ∀ p ∈ ps, previousOf h' p = previousOf h p)
    (hdata : ∀ p ∈ ps, dataOf h' p = dataOf h p) : Linked h' head tail ps ts where
  chain := by
    refine l.chain.congr hnext (fun p hp => ?_)
    rcases List.mem_cons.mp hp with rfl | hmem
    · rw [backward, backward, update_self, update_self]
    · have hne : p ≠ null := l.node_ne_null (List.mem_cons_of_mem _ hmem)
      rw [backward, backward, update_of_ne hne, update_of_ne hne]
      exact hprevious p hmem
  last := l.last
  content := by
    rw [← l.content]
    exact List.map_congr_left hdata

/-- The frame in terms of cells. -/
theorem frame (l : Linked h head tail ps ts) (hcell : ∀ p ∈ head :: ps, h'.cell p = h.cell p) :
    Linked h' head tail ps ts :=
  l.congr (fun p hp => Heap.field_congr (hcell p hp))
    (fun p hp => Heap.field_congr (hcell p (List.mem_cons_of_mem _ hp)))
    (fun p hp => Heap.field_congr (hcell p (List.mem_cons_of_mem _ hp)))

/-- One node behind the head node. -/
theorem single (hn : n ∈ h.live) (hne : n ≠ head)
    (hnext : nextOf h head = some n) (hnext' : nextOf h n = some null)
    (hprevious : previousOf h n = some head) (hdata : dataOf h n = some t) :
    Linked h head n [n] [t] where
  chain := by
    have hnull : n ≠ null := fun he => h.null_notMem_live (he ▸ hn)
    refine ⟨by simpa using hne.symm, by simpa using hnull.symm, ⟨hnext, hnext'⟩, ?_, ?_⟩
    · rw [backward, update_self, back, if_neg hnull]
    · show backward _ _ _ n = _
      rw [backward, update_of_ne hnull, hprevious]
  last := rfl
  content := by simp [hdata]

/-- A head node linked to null. -/
theorem nil (hnext : nextOf h head = some null) : Linked h head null [] ([] : List T) where
  chain := by
    refine ⟨List.nodup_singleton _, List.not_mem_nil, hnext, ?_⟩
    exact update_self ..
  last := rfl
  content := rfl

/-- A new head node. -/
theorem newNode [Inhabited T] (h : Heap (Node T)) :
    Linked (newNode h).2 (DataStructure.newNode h).1 null [] ([] : List T) := by
  have hnext : nextOf (DataStructure.newNode h).2 =
      update (nextOf h) (DataStructure.newNode h).1 (some null) := Heap.field_alloc _
  refine nil ?_
  rw [hnext, update_self]

/-- A node put in between two neighbours. -/
theorem putIn (l : Linked h head tail (xs ++ ys) ts) (hn : n ∉ head :: (xs ++ ys))
    (hnull : n ≠ null)
    (hnext : nextOf h' =
      update (update (nextOf h) n (some (ys.headD null))) (xs.getLastD head) (some n))
    (hprevious : backward (previousOf h') head tail' =
      update (update (backward (previousOf h) head tail) n (some (xs.getLastD head)))
        (ys.headD null) (some n))
    (htail : tail' = (xs ++ n :: ys).getLastD null)
    (hdata : dataOf h' = update (dataOf h) n (some t)) :
    Linked h' head tail' (xs ++ n :: ys) (ts.take xs.length ++ t :: ts.drop xs.length) where
  chain := by
    have hlink := l.chain.link hn hnull
    have hback : backward (previousOf h) head tail (ys.headD null) =
        some (xs.getLastD head) := by
      cases ys with
      | nil =>
          rw [List.headD_nil, l.chain.last, List.append_nil]
      | cons a ys => exact l.chain.prev_of_mem
    rwa [l.chain.forward.init.last, hback, ← hnext, ← hprevious] at hlink
  last := htail
  content := by
    have hout : n ∉ xs ++ ys := fun hmem => hn (List.mem_cons_of_mem _ hmem)
    rw [List.mem_append, not_or] at hout
    have htake : xs.map (dataOf h) = (ts.take xs.length).map some := by
      rw [List.map_take, ← l.content, List.map_append, List.take_left' (List.length_map _)]
    have hdrop : ys.map (dataOf h) = (ts.drop xs.length).map some := by
      rw [List.map_drop, ← l.content, List.map_append, List.drop_left' (List.length_map _)]
    rw [List.map_append, List.map_append, List.map_cons, List.map_cons, hdata, update_self,
      map_update_of_notMem hout.1, map_update_of_notMem hout.2, htake, hdrop]

/-- A node put in at the back. -/
theorem pushBack (l : Linked h head tail ps ts) (hn : n ∉ head :: ps) (hnull : n ≠ null)
    (hnext : nextOf h' = update (update (nextOf h) n (some null)) (ps.getLastD head) (some n))
    (hprevious : previousOf h' = update (previousOf h) n (some (ps.getLastD head)))
    (hdata : dataOf h' = update (dataOf h) n (some t)) :
    Linked h' head n (ps ++ [n]) (ts ++ [t]) := by
  have l' : Linked h head tail (ps ++ []) ts := by rwa [List.append_nil]
  have hput := l'.putIn (by rwa [List.append_nil]) hnull hnext ?_
    (List.getLastD_concat ..).symm hdata
  · rwa [List.take_of_length_le (Nat.le_of_eq l.length_eq.symm),
      List.drop_eq_nil_of_le (Nat.le_of_eq l.length_eq.symm)] at hput
  · -- the link out of null is replaced by the new node
    rw [backward, back, if_neg hnull, hprevious, backward, update_comm hnull.symm, List.headD_nil,
      update_idem]

/-- A node put in in front of another. -/
theorem pushBefore (l : Linked h head tail (xs ++ a :: ys) ts)
    (hn : n ∉ head :: (xs ++ a :: ys)) (hnull : n ≠ null)
    (hnext : nextOf h' = update (update (nextOf h) n (some a)) (xs.getLastD head) (some n))
    (hprevious : previousOf h' =
      update (update (previousOf h) n (some (xs.getLastD head))) a (some n))
    (hdata : dataOf h' = update (dataOf h) n (some t)) :
    Linked h' head tail (xs ++ n :: a :: ys)
      (ts.take xs.length ++ t :: ts.drop xs.length) := by
  have ha : a ≠ null := l.node_ne_null (List.mem_cons_of_mem _ (by simp))
  refine l.putIn hn hnull hnext ?_ ?_ hdata
  · rw [backward, hprevious, backward, update_comm ha, update_comm hnull, List.headD_cons]
  · rw [l.last, Chain.getLastD_append_cons, Chain.getLastD_append_cons, List.getLastD_cons]

/-- A node put in at the front of a chain with nodes. -/
theorem pushFront (l : Linked h head tail (a :: ps) ts) (hn : n ∉ head :: a :: ps)
    (hnull : n ≠ null)
    (hnext : nextOf h' = update (update (nextOf h) n (some a)) head (some n))
    (hprevious : previousOf h' = update (update (previousOf h) n (some head)) a (some n))
    (hdata : dataOf h' = update (dataOf h) n (some t)) :
    Linked h' head tail (n :: a :: ps) (t :: ts) := by
  have l' : Linked h head tail ([] ++ a :: ps) ts := l
  exact l'.pushBefore hn hnull hnext hprevious hdata

/-- The chain ended after its first nodes. -/
theorem cut (l : Linked h head tail (xs ++ ys) ts)
    (hnext : nextOf h' = update (nextOf h) (xs.getLastD head) (some null))
    (hprevious : previousOf h' = previousOf h) (hdata : dataOf h' = dataOf h)
    (htail : tail' = xs.getLastD null) :
    Linked h' head tail' xs (ts.take xs.length) where
  chain := by
    have hcut := l.chain.cut
    have hback : back head tail' = xs.getLastD head := by
      cases xs with
      | nil => rw [htail, List.getLastD_nil, List.getLastD_nil, back, if_pos rfl]
      | cons x xs =>
          have hmem : xs.getLastD x ∈ x :: xs := List.getLastD_mem_cons
          rw [htail, List.getLastD_cons, List.getLastD_cons, back,
            if_neg (l.node_ne_null (List.mem_cons_of_mem _ (List.mem_append_left _ hmem)))]
    rw [hnext, backward, hprevious, hback]
    rwa [backward, update_idem] at hcut
  last := htail
  content := by
    rw [List.map_take, ← l.content, List.map_append, hdata, List.take_left' (List.length_map _)]

/-- A node taken out: its neighbours are joined. -/
theorem remove (l : Linked h head tail (xs ++ a :: ys) ts)
    (hnext : nextOf h' = update (nextOf h) (xs.getLastD head) (some (ys.headD null)))
    (hprevious : backward (previousOf h') head tail' =
      update (backward (previousOf h) head tail) (ys.headD null) (some (xs.getLastD head)))
    (htail : tail' = (xs ++ ys).getLastD null) (hdata : dataOf h' = dataOf h) :
    Linked h' head tail' (xs ++ ys) (ts.eraseIdx xs.length) where
  chain := by
    have hunlink := l.chain.unlink
    rwa [l.chain.next_of_mem, l.chain.prev_of_mem, ← hnext, ← hprevious] at hunlink
  last := htail
  content := by
    have hxs : (xs ++ a :: ys).eraseIdx xs.length = xs ++ ys := by
      rw [List.eraseIdx_append_of_length_le (Nat.le_refl _), Nat.sub_self]
      rfl
    rw [← hxs, ← List.eraseIdx_map, hdata, l.content, List.eraseIdx_map]

/-- An element overwritten. -/
theorem overwrite {i : Nat} (l : Linked h head tail ps ts) (ha : ps[i]? = some a)
    (s : Stored h h' a (update (dataOf h) a (some t)) (nextOf h) (previousOf h)) :
    Linked h' head tail ps (ts.set i t) where
  chain := by
    rw [s.next, s.previous]
    exact l.chain
  last := l.last
  content := by
    rw [s.data, map_update_of_getElem l.chain.nodup_nodes ha, l.content, List.map_set]

/-- What a node holds. -/
theorem data_getElem (l : Linked h head tail ps ts) {k : Nat} (hk : ps[k]? = some a) :
    ∃ t, ts[k]? = some t ∧ dataOf h a = some t := by
  have hcontent := congrArg (·[k]?) l.content
  simp only [List.getElem?_map, hk, Option.map_some] at hcontent
  obtain ⟨t, ht, hdata⟩ := Option.map_eq_some_iff.mp hcontent.symm
  exact ⟨t, ht, hdata.symm⟩

/-- A node taken out and deleted. -/
theorem delete {h1 h2 : Heap (Node T)} (l : Linked h head tail (xs ++ a :: ys) ts)
    (hnext : nextOf h1 = update (nextOf h) (xs.getLastD head) (some (ys.headD null)))
    (hprevious : backward (previousOf h1) head tail' =
      update (backward (previousOf h) head tail) (ys.headD null) (some (xs.getLastD head)))
    (htail : tail' = (xs ++ ys).getLastD null) (hdata : dataOf h1 = dataOf h)
    (hfree : h1.free a = some h2) :
    Linked h2 head tail' (xs ++ ys) (ts.eraseIdx xs.length) := by
  refine (l.remove hnext hprevious htail hdata).frame ?_
  intro p hp
  have hout : a ∉ head :: (xs ++ ys) := l.chain.not_mem_rest
  obtain ⟨y, -, hcell, -⟩ := Heap.free_some hfree
  rw [hcell, update_of_ne (fun he : p = a => hout (he ▸ hp))]

/-- How a node is taken out and deleted: the stores the methods make, one after the other. -/
theorem takeOut (l : Linked h head tail (xs ++ a :: ys) ts) :
    ∃ h1 h2 h3, setNext h (xs.getLastD head) (ys.headD null) = some h1 ∧
      nextOf h1 a = some (ys.headD null) ∧ previousOf h1 a = some (xs.getLastD head) ∧
      (if ys.headD null ≠ null then setPrevious h1 (ys.headD null) (xs.getLastD head)
        else some h1) = some h2 ∧
      h2.free a = some h3 ∧
      Linked h3 head ((xs ++ ys).getLastD null) (xs ++ ys) (ts.eraseIdx xs.length) := by
  have hprev : previousOf h a = some (xs.getLastD head) := l.previous_of_mem
  have hnext : nextOf h a = some (ys.headD null) := l.chain.next_of_mem
  have hpred : xs.getLastD head ∈ head :: (xs ++ a :: ys) := Chain.pred_mem _ _ _
  have ha : a ∈ head :: (xs ++ a :: ys) := by simp
  have hout : a ∉ head :: (xs ++ ys) := l.chain.not_mem_rest
  have hne : a ≠ xs.getLastD head := fun he => hout (he ▸ Chain.pred_mem _ _ _)
  obtain ⟨h1, e1, s1⟩ := setNext_spec (l.node_live hpred) (ys.headD null)
  have hnext1 : nextOf h1 a = some (ys.headD null) := by rw [s1.next, update_of_ne hne, hnext]
  have hprev1 : previousOf h1 a = some (xs.getLastD head) := by rw [s1.previous, hprev]
  cases ys with
  | nil =>
      obtain ⟨y, hy⟩ := Heap.mem_live.mp (s1.live ▸ l.node_live ha)
      obtain ⟨h2, e2, -⟩ := Heap.free_eq hy
      refine ⟨h1, h1, h2, e1, hnext1, hprev1, if_neg (not_not.mpr rfl), e2,
        l.delete s1.next ?_ rfl s1.data e2⟩
      -- the link out of null leads to the node in front
      have hback : back head ((xs ++ []).getLastD null) = xs.getLastD head := by
        rw [List.append_nil, ← l.head_or_last, back]
        by_cases hfirst : xs.getLastD head = head
        · rw [if_pos hfirst, if_pos rfl, hfirst]
        · rw [if_neg hfirst, if_neg (l.node_ne_null hpred)]
      rw [s1.previous, backward, backward, List.headD_nil, update_idem, hback]
  | cons b ys =>
      have hb : b ∈ head :: (xs ++ a :: b :: ys) := by simp
      have hnull : b ≠ null := l.node_ne_null hb
      obtain ⟨h2, e2, s2⟩ := setPrevious_spec (s1.live ▸ l.node_live hb) (xs.getLastD head)
      obtain ⟨y, hy⟩ := Heap.mem_live.mp (s2.live ▸ s1.live ▸ l.node_live ha)
      obtain ⟨h3, e3, -⟩ := Heap.free_eq hy
      have htail : (xs ++ b :: ys).getLastD null = tail := by
        rw [l.last, Chain.getLastD_append_cons, Chain.getLastD_append_cons, List.getLastD_cons]
      refine ⟨h1, h2, h3, e1, hnext1, hprev1, (if_pos hnull).trans e2, e3,
        l.delete (s2.next.trans s1.next) ?_ rfl (s2.data.trans s1.data) e3⟩
      rw [htail, s2.previous, s1.previous, backward, backward, List.headD_cons,
        update_comm hnull.symm]

end Linked

/-! ## What a client relies on -/

/-- The nodes `ps` and their elements `ts`, in both directions, and the fields that go
with them. -/
structure Ordered (h : Heap (Node T)) (head tail : Ptr) (size : UInt32) (ps : List Ptr)
    (ts : List T) : Prop where
  /-- from `m_head` along `next` -/
  forward : Seg (nextOf h) head ps null
  /-- from `m_tail` along `previous` back to `m_head` -/
  backward : ∀ p qs, ps.reverse = p :: qs → tail = p ∧ Seg (previousOf h) p qs head
  content : ps.map (dataOf h) = ts.map some
  tail_null : tail = null ↔ ts = []
  size : size.toNat = ts.length

/-- The link backwards of a node of an ordered list. -/
theorem Ordered.previous_of_mem {size : UInt32} (o : Ordered h head tail size (xs ++ a :: ys) ts) :
    previousOf h a = some (xs.getLastD head) := by
  have hfirst : Seg (previousOf h) a xs.reverse head →
      previousOf h a = some (xs.getLastD head) := by
    intro hseg
    rw [hseg.first, Chain.headD_reverse]
  have hback := o.backward
  rw [Chain.reverse_append_cons] at hback
  cases hys : ys.reverse with
  | nil =>
      rw [hys] at hback
      exact hfirst (hback a _ rfl).2
  | cons y zs =>
      rw [hys] at hback
      exact hfirst (Seg.append_cons_iff.mp (hback y _ rfl).2).2

theorem Linked.ordered (l : Linked h head tail ps ts) {size : UInt32}
    (hsize : size.toNat = ts.length) : Ordered h head tail size ps ts where
  forward := l.chain.forward
  backward p qs hps := by
    have hback := l.chain.backward
    rw [hps] at hback
    refine ⟨?_, hback.2.congr (fun y hy => ?_)⟩
    · rw [l.last, ← Chain.headD_reverse, hps, List.headD_cons]
    · have hy' : y ∈ ps := by
        rw [← List.mem_reverse, hps]
        exact hy
      rw [DataStructure.backward,
        update_of_ne (l.node_ne_null (List.mem_cons_of_mem _ hy'))]
  content := l.content
  tail_null := by
    rw [l.tail_eq_null_iff, ← List.length_eq_zero_iff, l.length_eq, List.length_eq_zero_iff]
  size := hsize

end Linked

end LearnSpace.DataStructure
