import LearnSpace.DataStructure.QueueDeque

/-!
# The nodes of a queue are deleted once

`clear` deletes the nodes but leaves the link of the head node as it was, to the
first of them. A push writes that link, so the queue works on; a `clear` or the
destructor before the next push walks it. `Keeps` is what holds in between: the queue
is in order, or it has no nodes and the link of its head node is null or leads to a
deleted node.
-/

namespace LearnSpace.DataStructure.Queue

open Keel Function

variable {T : Type} {h : Heap (Node T)} {q : Queue} {ps : List Ptr} {ts : List T}
  {build : Build}

/-- `clear` and the destructor find a chain that ends in null: the queue has nodes, however many its
size counts, or the link of its head node is null. -/
def Clearable (σ : State T) : Prop := σ.2.tail ≠ null ∨ nextOf σ.1 σ.2.head = some null

instance (σ : State T) : Decidable (Clearable σ) :=
  inferInstanceAs (Decidable (σ.2.tail ≠ null ∨ nextOf σ.1 σ.2.head = some null))

/-- Without nodes, and the link of the head node leads to no live node. -/
structure Stale (h : Heap (Node T)) (q : Queue) : Prop where
  bare : Bare h q
  lost : ∀ p, nextOf h q.head = some p → h.Lost p

/-- `q` holds the list `ts` in the nodes `ps`, up to a link that is left over. -/
def Keeps (h : Heap (Node T)) (q : Queue) (ps : List Ptr) (ts : List T) : Prop :=
  Rep h q ps ts ∨ (ps = [] ∧ ts = [] ∧ Stale h q)

/-- The state `σ` is the queue `q`, whose nodes were `ps`, with `ts` in the nodes `qs`. -/
structure Turns (h : Heap (Node T)) (q : Queue) (ps : List Ptr) (σ : State T)
    (qs : List Ptr) (ts : List T) : Prop where
  keeps : Keeps σ.1 σ.2 qs ts
  head : σ.2.head = q.head
  exchange : h.Exchange σ.1 (q.head :: ps) (q.head :: qs)

theorem Becomes.turns {σ : State T} {qs : List Ptr} (b : Becomes h q ps σ qs ts) :
    Turns h q ps σ qs ts :=
  ⟨.inl b.rep, b.head, b.exchange⟩

theorem Keeps.turns_self (k : Keeps h q ps ts) : Turns h q ps (h, q) ps ts :=
  ⟨k, rfl, .refl h _⟩

theorem Keeps.node_live (k : Keeps h q ps ts) {p : Ptr} (hp : p ∈ q.head :: ps) : p ∈ h.live := by
  rcases k with r | ⟨rfl, -, s⟩
  · exact r.linked.node_live hp
  · obtain rfl := List.mem_singleton.mp hp
    exact s.bare.head

/-- Another queue of the heap, of which no node is touched. -/
theorem Keeps.frame {h' : Heap (Node T)} (k : Keeps h q ps ts)
    (hcell : ∀ p ∈ q.head :: ps, h'.cell p = h.cell p) (hlost : ∀ p, h.Lost p → h'.Lost p) :
    Keeps h' q ps ts := by
  rcases k with r | ⟨rfl, rfl, s⟩
  · exact .inl (r.frame hcell)
  · have hhead := hcell q.head List.mem_cons_self
    refine .inr ⟨rfl, rfl, ⟨?_, s.bare.tail, s.bare.size⟩, fun p hp => hlost p (s.lost p ?_)⟩
    · obtain ⟨y, hy⟩ := Heap.mem_live.mp s.bare.head
      exact Heap.mem_live.mpr ⟨y, hhead.trans hy⟩
    · rw [← hp]
      exact (Heap.field_congr hhead).symm

/-! ## The calls -/

section Calls

variable [Inhabited T]

/-- A queue with a link left over answers as an empty one. -/
theorem stale_call_spec (s : Stale h q) {c : Call T} (hc : c ≠ .clear) :
    ∃ σ qs, q.call build h c = some (σ, ((wrapping build T).next [] c).2) ∧
      Turns h q [] σ qs ((wrapping build T).next [] c).1 := by
  have hself : Turns h q [] (h, q) [] ([] : List T) :=
    Keeps.turns_self (.inr ⟨rfl, rfl, s⟩)
  have hsize := s.bare.size
  have hcount : q.size = count ([] : List T) := hsize
  have hgoes : ¬ build.Stops (count ([] : List T) + 1 ≤ maxSize) := hcount ▸ s.bare.goes build
  cases c with
  | pushBack t | pushBackMove t =>
      obtain ⟨σ, n, hpush, hb⟩ := pushBack_bare s.bare t
      refine ⟨σ, [n], ?_, ?_⟩ <;> simp only [wrapping, if_neg hgoes]
      · exact hpush
      · exact hb.turns
  | pushFront t =>
      obtain ⟨σ, n, hpush, hb⟩ := pushFront_bare s.bare t
      refine ⟨σ, [n], ?_, ?_⟩ <;> simp only [wrapping, if_neg hgoes]
      · exact hpush
      · exact hb.turns
  | popBack => exact ⟨(h, q), [], by rw [call, popBack, if_pos hsize]; rfl, hself⟩
  | popFront => exact ⟨(h, q), [], by rw [call, popFront, if_pos hsize]; rfl, hself⟩
  | head => exact ⟨(h, q), [], by rw [call, front, if_pos hsize]; rfl, hself⟩
  | tail => exact ⟨(h, q), [], by rw [call, rear, if_pos hsize]; rfl, hself⟩
  | at' pos =>
      refine ⟨(h, q), [], ?_, hself⟩
      have hout : pos.toUInt32 ≥ q.size := by
        show q.size ≤ pos.toUInt32
        rw [hsize, UInt32.le_iff_toNat_le]
        exact Nat.zero_le _
      rw [call, at', if_pos hout]
      rw [hcount] at hout
      simp only [wrapping, if_pos (Or.inr hout)]
      rfl
  | size => exact ⟨(h, q), [], by rw [call, hsize]; rfl, hself⟩
  | isEmpty => exact ⟨(h, q), [], by rw [call, hsize]; rfl, hself⟩
  | clear => exact absurd rfl hc

end Calls

/-! ## `clear` and the destructor -/

/-- The loop of `clear` starts at the first node or at null, and leaves the head node. -/
theorem clear_deletes (k : Keeps h q ps ts) (hclear : Clearable (h, q)) :
    ∃ p h', nextOf h q.head = some p ∧ deleteFrom h p = some h' ∧
      h.Exchange h' (q.head :: ps) [q.head] ∧ h'.cell q.head = h.cell q.head ∧ h'.Lost p := by
  rcases k with r | ⟨rfl, rfl, s⟩
  · cases ps with
    | nil =>
        exact ⟨null, h, r.linked.chain.first, deleteFrom_null h, .refl h _, rfl,
          h.null_lt_brk, h.cell_null⟩
    | cons a ps =>
        have hseg := r.linked.chain.forward
        have hnd := List.nodup_cons.mp r.linked.chain.nodup
        have hlive : ∀ p ∈ a :: ps, p ∈ h.live :=
          fun p hp => r.linked.node_live (List.mem_cons_of_mem _ hp)
        obtain ⟨h', hdel, hx⟩ := deleteFrom_chain hnd.2 hseg.2
        exact ⟨a, h', hseg.1, hdel, hx.cons q.head, hx.frame _ hnd.1 List.not_mem_nil,
          hx.lost_of_released hlive List.mem_cons_self List.not_mem_nil⟩
  · have hnull : nextOf h q.head = some null := hclear.resolve_left (not_not_intro s.bare.tail)
    exact ⟨null, h, hnull, deleteFrom_null h, .refl h _, rfl, h.null_lt_brk, h.cell_null⟩

theorem clear_spec (k : Keeps h q ps ts) (hclear : Clearable (h, q)) :
    ∃ σ, q.clear h = some (σ, .done) ∧ Turns h q ps σ [] ([] : List T) := by
  obtain ⟨p, h', hnext, hdel, hx, hhead, hlost⟩ := clear_deletes k hclear
  have hnext' : nextOf h' q.head = some p := (Heap.field_congr hhead).trans hnext
  refine ⟨(h', { q with tail := null, size := 0 }), ?_, .inr ⟨rfl, rfl, ?_, ?_⟩, rfl, hx⟩
  · simp only [clear, hnext, hdel, Option.bind_eq_bind, Option.bind_some, Option.pure_def]
  · exact ⟨mem_live_of_nextOf hnext', rfl, rfl⟩
  · intro p' hp'
    rw [hnext'] at hp'
    cases hp'
    exact hlost

/-- The destructor deletes what `clear` leaves. -/
theorem destroy_deletes (k : Keeps h q ps ts) (hclear : Clearable (h, q)) :
    ∃ h', q.destroy h = some h' ∧ h.Exchange h' (q.head :: ps) [] := by
  obtain ⟨⟨h', q'⟩, hcall, k', hhead, hx⟩ := clear_spec k hclear
  have hlive : q.head ∈ h'.live := hhead ▸ k'.node_live List.mem_cons_self
  obtain ⟨y, hy⟩ := Heap.mem_live.mp hlive
  obtain ⟨h'', hfree, -⟩ := Heap.free_eq hy
  refine ⟨h'', ?_, hx.trans (.free hfree List.mem_cons_self (by simp))⟩
  simp only [destroy, hcall, Option.bind_eq_bind, Option.bind_some]
  rwa [hhead]

theorem destroy_spec (k : Keeps h q ps ts) (hown : ∀ p, p ∈ h.live ↔ p ∈ q.head :: ps)
    (hclear : Clearable (h, q)) : ∃ h', q.destroy h = some h' ∧ h'.live = ∅ := by
  obtain ⟨h', hdestroy, hx⟩ := destroy_deletes k hclear
  refine ⟨h', hdestroy, ?_⟩
  ext p
  rw [hx.owned (fun p hp => absurd hp List.not_mem_nil) hown p]
  simp

/-- Otherwise `clear` goes on at a node that was deleted before. -/
theorem clear_undefined (k : Keeps h q ps ts) (hclear : ¬ Clearable (h, q)) :
    q.clear h = none := by
  rw [Clearable, not_or, not_ne_iff] at hclear
  rcases k with r | ⟨rfl, rfl, s⟩
  · obtain rfl : ps = [] := r.linked.tail_eq_null_iff.mp hclear.1
    exact absurd r.linked.chain.first hclear.2
  · obtain ⟨node, hnode⟩ := Heap.mem_live.mp s.bare.head
    have hnext : nextOf h q.head = some node.next := by
      rw [nextOf, Heap.field, Heap.load, hnode, Option.map_some]
    have hnull : node.next ≠ null := fun he => hclear.2 (he ▸ hnext)
    have hdead : node.next ∉ h.live := Heap.notMem_live.mpr (s.lost _ hnext).2
    simp only [clear, hnext, deleteFrom_dead hnull hdead, Option.bind_eq_bind,
      Option.bind_some, Option.bind_none]

theorem destroy_undefined (k : Keeps h q ps ts) (hclear : ¬ Clearable (h, q)) :
    q.destroy h = none := by
  simp only [destroy, clear_undefined k hclear, Option.bind_eq_bind, Option.bind_none]

/-! ## Runs -/

section Runs

variable [Inhabited T]

/-- The calls that are in reach and, in the case of `clear`, find no link left over. -/
def Safe (σ : State T) (c : Call T) : Prop := InReach σ.2 c ∧ (c = .clear → Clearable σ)

instance [DecidableEq T] (σ : State T) (c : Call T) : Decidable (Safe σ c) :=
  inferInstanceAs (Decidable (InReach σ.2 c ∧ (c = .clear → Clearable σ)))

theorem safe_call_spec (k : Keeps h q ps ts) {c : Call T} (hsafe : Safe (h, q) c) :
    ∃ σ qs, q.call build h c = some (σ, ((wrapping build T).next ts c).2) ∧
      Turns h q ps σ qs ((wrapping build T).next ts c).1 := by
  by_cases hc : c = .clear
  · subst hc
    obtain ⟨σ, hcall, ht⟩ := clear_spec k (hsafe.2 rfl)
    exact ⟨σ, [], hcall, ht⟩
  · rcases k with r | ⟨rfl, rfl, s⟩
    · obtain ⟨σ, qs, hcall, hb⟩ := call_spec r hc hsafe.1
      exact ⟨σ, qs, hcall, hb.turns⟩
    · exact stale_call_spec s hc

/-- A call that is not safe has no defined behaviour. -/
theorem call_undefined (k : Keeps h q ps ts) {c : Call T} (hsafe : ¬ Safe (h, q) c) :
    q.call build h c = none := by
  by_cases hreach : InReach q c
  · obtain ⟨rfl, hclear⟩ : c = .clear ∧ ¬ Clearable (h, q) := by
      by_contra hnot
      exact hsafe ⟨hreach, fun hc => by_contra fun hclear => hnot ⟨hc, hclear⟩⟩
    exact clear_undefined k hclear
  · exact call_out_of_reach hreach

/-- The nodes `ps` behind the head node hold `ts`, and nothing else is live. -/
structure Owns (σ : State T) (ps : List Ptr) (ts : List T) : Prop where
  keeps : Keeps σ.1 σ.2 ps ts
  owned : ∀ p, p ∈ σ.1.live ↔ p ∈ σ.2.head :: ps

omit [Inhabited T] in
theorem Turns.owns {σ σ' : State T} {qs : List Ptr} {us : List T}
    (t : Turns σ.1 σ.2 ps σ' qs us) (o : Owns σ ps ts) : Owns σ' qs us where
  keeps := t.keeps
  owned p := by
    have hlive : ∀ p ∈ σ.2.head :: qs, p ∈ σ'.1.live :=
      fun p hp => t.keeps.node_live (t.head ▸ hp)
    rw [t.head, t.exchange.owned hlive o.owned]

theorem construct_owns : Owns (construct (Heap.empty : Heap (Node T))) [] ([] : List T) where
  keeps := .inl (construct_rep .empty)
  owned p := by
    show p ∈ (newNode (Heap.empty : Heap (Node T))).2.live ↔ _
    rw [newNode, Heap.live_alloc, Finset.mem_insert, List.mem_singleton, or_iff_left]
    · rfl
    · exact Heap.notMem_live.mpr rfl

/-- A queue in a heap that holds other nodes too. -/
theorem refines_keeps :
    (queue build T).Refines Safe (wrapping build T) (fun σ ts => ∃ ps, Keeps σ.1 σ.2 ps ts) where
  start := ⟨[], .inl (construct_rep .empty)⟩
  exec := by
    rintro σ ts c ⟨ps, k⟩ hsafe
    obtain ⟨σ', qs, hcall, ht⟩ := safe_call_spec k hsafe
    exact ⟨σ', hcall, qs, ht.keeps⟩

theorem refines_cleared :
    (queue build T).Refines Safe (wrapping build T) (fun σ ts => ∃ ps, Owns σ ps ts) where
  start := ⟨[], construct_owns⟩
  exec := by
    rintro σ ts c ⟨ps, o⟩ hsafe
    obtain ⟨σ', qs, hcall, ht⟩ := safe_call_spec o.keeps hsafe
    exact ⟨σ', hcall, qs, ht.owns o⟩

/-- **Every node is deleted once.** A run whose calls are safe reaches no deleted node
and answers as a deque that `clear` empties, whose size wraps only in a build without
assertions and after `2 ^ 32` calls; its live nodes are the head node and one for each
element. The next `clear` is defined, and the destructor is and leaves nothing live,
exactly when the queue has elements or no link is left over. -/
theorem deleted_once_iff (build : Build) (cs : List (Call T))
    (hobeys : (queue build T).Obeys Safe (queue build T).start cs) :
    ∃ σ ps, (queue build T).run (queue build T).start cs =
        some (σ, ((wrapping build T).run [] cs).2) ∧
      (build = .debug ∨ cs.length < 2 ^ 32 →
        (wrapping build T).run [] cs = (deque build T).run [] cs) ∧
      ps.length = ((wrapping build T).run [] cs).1.length ∧ (σ.2.head :: ps).Nodup ∧
      (∀ p, p ∈ σ.1.live ↔ p ∈ σ.2.head :: ps) ∧
      (((queue build T).exec σ .clear).isSome ↔ Clearable σ) ∧
      ((∃ h, σ.2.destroy σ.1 = some h ∧ h.live = ∅) ↔ Clearable σ) := by
  obtain ⟨σ, hrun, ps, o⟩ := refines_cleared.run cs hobeys
  refine ⟨σ, ps, hrun, ?_, ?_, ?_, o.owned, ⟨?_, ?_⟩, ⟨?_, destroy_spec o.keeps o.owned⟩⟩
  · intro hroom
    refine wrapping_run cs (Nat.zero_le _) (hroom.imp id fun h => ?_)
    rwa [List.length_nil, Nat.zero_add]
  · rcases o.keeps with r | ⟨rfl, hts, -⟩
    · exact r.linked.length_eq
    · rw [show (wrapping build T).run [] cs = (wrapping build T).run (wrapping build T).start cs
        from rfl, hts]
      rfl
  · rcases o.keeps with r | ⟨rfl, -, -⟩
    · exact r.linked.chain.nodup
    · exact List.nodup_singleton _
  · intro hsome
    by_contra hclear
    have hnone : (queue build T).exec σ .clear = none := clear_undefined o.keeps hclear
    rw [hnone] at hsome
    cases hsome
  · intro hclear
    obtain ⟨σ', hcall, -⟩ := clear_spec o.keeps hclear
    have hexec : (queue build T).exec σ .clear = some (σ', .done) := hcall
    rw [hexec]
    rfl
  · rintro ⟨h, hdestroy, -⟩
    by_contra hclear
    rw [destroy_undefined o.keeps hclear] at hdestroy
    cases hdestroy

end Runs

/-- A queue that is cleared, filled, emptied and cleared again. -/
theorem deleted_once_iff_refilled :
    ∃ σ ps, (queue .debug Nat).run (queue .debug Nat).start
        [.pushBack 1, .pushFront 2, .clear, .pushFront 3, .popBack, .clear, .pushBack 4] =
          some (σ, [.done, .done, .done, .done, .value 3, .done, .done]) ∧
      (Build.debug = .debug ∨ 7 < 2 ^ 32 →
        (wrapping .debug Nat).run [] [.pushBack 1, .pushFront 2, .clear, .pushFront 3, .popBack,
          .clear, .pushBack 4] =
        (deque .debug Nat).run [] [.pushBack 1, .pushFront 2, .clear, .pushFront 3, .popBack,
          .clear, .pushBack 4]) ∧
      ps.length = 1 ∧ (σ.2.head :: ps).Nodup ∧ (∀ p, p ∈ σ.1.live ↔ p ∈ σ.2.head :: ps) ∧
      (((queue .debug Nat).exec σ .clear).isSome ↔ Clearable σ) ∧
      ((∃ h, σ.2.destroy σ.1 = some h ∧ h.live = ∅) ↔ Clearable σ) :=
  deleted_once_iff .debug [.pushBack 1, .pushFront 2, .clear, .pushFront 3, .popBack, .clear,
    .pushBack 4] (by decide +kernel)

/-- After a push and `clear`, the next `clear` and the destructor walk the link that was
left over. -/
theorem clear_leaves_link :
    ∃ σ, (queue .debug Nat).run (queue .debug Nat).start [.pushBack 7, .clear] =
        some (σ, [.done, .done]) ∧
      (queue .debug Nat).exec σ .clear = none ∧ σ.2.destroy σ.1 = none :=
  ⟨_, rfl, rfl, rfl⟩

end LearnSpace.DataStructure.Queue
