import LearnSpace.DataStructure.Queue

/-!
# What the methods of a queue do

`Rep h q ps ts` says that `q` holds the list `ts` in the nodes `ps`. `Bare h q` says
less of a queue without elements: the link of its head node may lead anywhere. The
pushes ask no more than that, since they look at `m_tail` only. Each method has one
lemma that says what it does to the nodes and the list.
-/

namespace LearnSpace.DataStructure.Queue

open Keel Function

variable {T : Type} {h : Heap (Node T)} {q : Queue} {ps xs : List Ptr} {ts : List T} {a : Ptr}

theorem count_append (ts us : List T) : count (ts ++ us) = count ts + count us := by
  rw [count, List.length_append, UInt32.ofNat_add]
  rfl

theorem count_cons (t : T) (ts : List T) : count (t :: ts) = count ts + 1 := by
  rw [count, List.length_cons, UInt32.ofNat_add]
  rfl

theorem count_toNat (hts : ts.length < 2 ^ 32) : (count ts).toNat = ts.length := by
  rw [count, UInt32.toNat_ofNat', Nat.mod_eq_of_lt hts]

theorem count_toNat_le (ts : List T) : (count ts).toNat ≤ ts.length := by
  rw [count, UInt32.toNat_ofNat']
  exact Nat.mod_le _ _

/-- The count of an element less. -/
theorem count_sub_one {i : Nat} (hi : i < ts.length) : count (ts.eraseIdx i) = count ts - 1 := by
  have hlength : (ts.eraseIdx i).length + 1 = ts.length := by
    rw [List.length_eraseIdx_of_lt hi]
    omega
  have hsum : count ts = count (ts.eraseIdx i) + 1 := by
    rw [count, count, ← hlength, UInt32.ofNat_add]
    rfl
  rw [hsum, UInt32.add_sub_cancel]

/-- `q` holds the list `ts` in the nodes `ps`. -/
structure Rep (h : Heap (Node T)) (q : Queue) (ps : List Ptr) (ts : List T) : Prop where
  linked : Linked h q.head q.tail ps ts
  counted : q.size = count ts

/-- `q` has no elements; the link of its head node may be left over. -/
structure Bare (h : Heap (Node T)) (q : Queue) : Prop where
  head : q.head ∈ h.live
  tail : q.tail = null
  size : q.size = 0

/-- The state `σ` is the queue `q`, whose nodes were `ps`, with the list `ts` in the
nodes `qs`. -/
structure Becomes (h : Heap (Node T)) (q : Queue) (ps : List Ptr) (σ : State T)
    (qs : List Ptr) (ts : List T) : Prop where
  rep : Rep σ.1 σ.2 qs ts
  head : σ.2.head = q.head
  exchange : h.Exchange σ.1 (q.head :: ps) (q.head :: qs)

namespace Rep

theorem bare (r : Rep h q [] ts) : Bare h q where
  head := r.linked.head_live
  tail := r.linked.last
  size := by
    rw [r.counted, List.length_eq_zero_iff.mp r.linked.length_eq.symm]
    rfl

/-- Another queue of the heap, of which no node is touched. -/
theorem frame {h' : Heap (Node T)} (r : Rep h q ps ts)
    (hcell : ∀ p ∈ q.head :: ps, h'.cell p = h.cell p) : Rep h' q ps ts :=
  ⟨r.linked.frame hcell, r.counted⟩

end Rep

/-- A head node linked to null, and no elements. -/
theorem rep_empty (hnext : nextOf h q.head = some null) (htail : q.tail = null)
    (hsize : q.size = 0) : Rep h q [] [] where
  linked := htail ▸ .nil hnext
  counted := hsize

theorem construct_rep [Inhabited T] (h : Heap (Node T)) :
    Rep (construct h).1 (construct h).2 [] [] where
  linked := .newNode h
  counted := rfl

/-! ## The pushes -/

section Push

variable [Inhabited T] {build : Build}

omit [Inhabited T] in
/-- The assertion of a push holds for a queue without elements. -/
theorem Bare.goes (b : Bare h q) (build : Build) : ¬ build.Stops (q.size + 1 ≤ maxSize) := by
  rintro ⟨-, hfull⟩
  rw [b.size] at hfull
  exact hfull (by decide)

/-- `pushBack`: both branches link the new node behind the last one. -/
theorem pushBack_inserted (hgoes : ¬ build.Stops (q.size + 1 ≤ maxSize))
    (hlive : ∀ p ∈ q.head :: ps, p ∈ h.live) (hback : back q.head q.tail ∈ q.head :: ps) (t : T) :
    ∃ h' n, q.pushBack build h t = some ((h', { q with tail := n, size := q.size + 1 }), .done) ∧
      Inserted h h' (q.head :: ps) n
        (update (update (nextOf h) n (some null)) (back q.head q.tail) (some n))
        (update (previousOf h) n (some (back q.head q.tail))) t := by
  obtain ⟨h1, e1, i1⟩ := newNode_inserted h (q.head :: ps) t
  obtain ⟨h2, e2, i2⟩ := i1.setPrevious hlive (.inl rfl) (back q.head q.tail)
  obtain ⟨h3, e3, i3⟩ := i2.setNext hlive (.inr hback) (newNode h).1
  rw [update_idem] at i3
  refine ⟨h3, (newNode h).1, ?_, i3⟩
  by_cases htail : q.tail = null
  · rw [back, if_pos htail] at e2 e3
    simp only [pushBack, hgoes, if_false, e1, htail, if_true, e2, e3,
      Option.bind_eq_bind, Option.bind_some]
    rfl
  · rw [back, if_neg htail] at e2 e3
    simp only [pushBack, hgoes, if_false, e1, htail, e2, e3,
      Option.bind_eq_bind, Option.bind_some]
    rfl

/-- `pushFront` on a queue without nodes does what `pushBack` does. -/
theorem pushFront_inserted_bare (b : Bare h q) (t : T) :
    ∃ h' n, q.pushFront build h t = some ((h', { q with tail := n, size := q.size + 1 }), .done) ∧
      Inserted h h' [q.head] n
        (update (update (nextOf h) n (some null)) q.head (some n))
        (update (previousOf h) n (some q.head)) t := by
  have hlive : ∀ p ∈ [q.head], p ∈ h.live := by simpa using b.head
  have hgoes := b.goes build
  obtain ⟨h1, e1, i1⟩ := newNode_inserted h [q.head] t
  obtain ⟨h2, e2, i2⟩ := i1.setNext hlive (.inr List.mem_cons_self) (newNode h).1
  obtain ⟨h3, e3, i3⟩ := i2.setPrevious hlive (.inl rfl) q.head
  rw [update_idem] at i3
  refine ⟨h3, (newNode h).1, ?_, i3⟩
  simp only [pushFront, hgoes, if_false, e1, b.tail, if_true, e2, e3,
    Option.bind_eq_bind, Option.bind_some]
  rfl

/-- `pushFront` in front of a node `a`. -/
theorem pushFront_inserted (r : Rep h q (a :: ps) ts)
    (hgoes : ¬ build.Stops (q.size + 1 ≤ maxSize)) (t : T) :
    ∃ h' n, q.pushFront build h t = some ((h', { q with size := q.size + 1 }), .done) ∧
      Inserted h h' (q.head :: a :: ps) n
        (update (update (nextOf h) n (some a)) q.head (some n))
        (update (update (previousOf h) n (some q.head)) a (some n)) t := by
  have hlive : ∀ p ∈ q.head :: a :: ps, p ∈ h.live := fun p hp => r.linked.node_live hp
  have ha : a ∈ q.head :: a :: ps := List.mem_cons_of_mem _ List.mem_cons_self
  have htail : q.tail ≠ null := fun he => by
    have := r.linked.tail_eq_null_iff.mp he
    cases this
  have hfirst : nextOf h q.head = some a := r.linked.chain.first
  obtain ⟨h1, e1, i1⟩ := newNode_inserted h (q.head :: a :: ps) t
  have hn := i1.notMem hlive
  have hnh : q.head ≠ (newNode h).1 := fun he => hn (he ▸ List.mem_cons_self)
  have hna : a ≠ (newNode h).1 := fun he => hn (he ▸ ha)
  have hnext1 : nextOf h1 q.head = some a := by rw [i1.next, update_of_ne hnh, hfirst]
  obtain ⟨h2, e2, i2⟩ := i1.setNext hlive (.inl rfl) a
  obtain ⟨h3, e3, i3⟩ := i2.setNext hlive (.inr List.mem_cons_self) (newNode h).1
  have hnext3 : nextOf h3 (newNode h).1 = some a := by
    rw [i3.next, update_of_ne hnh.symm, update_self]
  obtain ⟨h4, e4, i4⟩ := i3.setPrevious hlive (.inr ha) (newNode h).1
  obtain ⟨h5, e5, i5⟩ := i4.setPrevious hlive (.inl rfl) q.head
  rw [update_idem, update_comm hna, update_idem] at i5
  refine ⟨h5, (newNode h).1, ?_, i5⟩
  simp only [pushFront, hgoes, if_false, e1, htail, hnext1, e2, e3, hnext3,
    e4, e5, Option.bind_eq_bind, Option.bind_some]
  rfl

omit [Inhabited T] in
/-- A node linked behind the head node of a queue without nodes. -/
theorem Bare.becomes {h' : Heap (Node T)} {n : Ptr} {t : T} (b : Bare h q)
    (i : Inserted h h' [q.head] n (update (update (nextOf h) n (some null)) q.head (some n))
      (update (previousOf h) n (some q.head)) t) :
    Becomes h q [] (h', { q with tail := n, size := q.size + 1 }) [n] [t] where
  rep := by
    have hne : n ≠ q.head := fun he => i.fresh (he ▸ b.head)
    have hn : n ∈ h'.live := i.live ▸ Finset.mem_insert_self _ _
    refine ⟨.single hn hne ?_ ?_ ?_ ?_, ?_⟩
    · rw [i.next, update_self]
    · rw [i.next, update_of_ne hne, update_self]
    · rw [i.previous, update_self]
    · rw [i.data, update_self]
    · show q.size + 1 = 1
      rw [b.size]
      rfl
  head := rfl
  exchange := i.exchange _ (by simp [or_comm])

theorem pushBack_bare (b : Bare h q) (t : T) :
    ∃ σ n, q.pushBack build h t = some (σ, .done) ∧ Becomes h q [] σ [n] [t] := by
  have hback : back q.head q.tail = q.head := if_pos b.tail
  have hlive : ∀ p ∈ [q.head], p ∈ h.live := by simpa using b.head
  obtain ⟨h', n, hpush, i⟩ := pushBack_inserted (b.goes build) hlive (by simp [hback]) t
  rw [hback] at i
  exact ⟨_, n, hpush, b.becomes i⟩

theorem pushFront_bare (b : Bare h q) (t : T) :
    ∃ σ n, q.pushFront build h t = some (σ, .done) ∧ Becomes h q [] σ [n] [t] := by
  obtain ⟨h', n, hpush, i⟩ := pushFront_inserted_bare b t
  exact ⟨_, n, hpush, b.becomes i⟩

theorem pushBack_spec (r : Rep h q ps ts) (hgoes : ¬ build.Stops (q.size + 1 ≤ maxSize)) (t : T) :
    ∃ σ n, q.pushBack build h t = some (σ, .done) ∧ Becomes h q ps σ (ps ++ [n]) (ts ++ [t]) := by
  have hlive : ∀ p ∈ q.head :: ps, p ∈ h.live := fun p hp => r.linked.node_live hp
  have hback : back q.head q.tail = ps.getLastD q.head := r.linked.back_eq
  obtain ⟨h', n, hpush, i⟩ := pushBack_inserted hgoes hlive
    (by rw [hback]; exact List.getLastD_mem_cons) t
  rw [hback] at i
  refine ⟨_, n, hpush, ⟨?_, ?_⟩, rfl, i.exchange _ ?_⟩
  · exact r.linked.pushBack (i.notMem hlive) i.ne_null i.next i.previous i.data
  · show q.size + 1 = _
    rw [count_append, r.counted]
    rfl
  · intro p
    simp only [List.mem_cons, List.mem_append]
    tauto

theorem pushFront_spec (r : Rep h q ps ts) (hgoes : ¬ build.Stops (q.size + 1 ≤ maxSize))
    (t : T) :
    ∃ σ n, q.pushFront build h t = some (σ, .done) ∧ Becomes h q ps σ (n :: ps) (t :: ts) := by
  cases ps with
  | nil =>
      obtain ⟨σ, n, hpush, hb⟩ := pushFront_bare r.bare t
      obtain rfl := List.length_eq_zero_iff.mp r.linked.length_eq.symm
      exact ⟨σ, n, hpush, hb⟩
  | cons a ps =>
      have hlive : ∀ p ∈ q.head :: a :: ps, p ∈ h.live := fun p hp => r.linked.node_live hp
      obtain ⟨h', n, hpush, i⟩ := pushFront_inserted r hgoes t
      refine ⟨_, n, hpush, ⟨?_, ?_⟩, rfl, i.exchange _ ?_⟩
      · exact r.linked.pushFront (i.notMem hlive) i.ne_null i.next i.previous i.data
      · show q.size + 1 = _
        rw [count_cons, r.counted]
      · intro p
        simp only [List.mem_cons]
        tauto

/-- A full queue: the assertion of a push fails. -/
theorem push_full (hstops : build.Stops (q.size + 1 ≤ maxSize)) (t : T) :
    q.pushBack build h t = some ((h, q), .aborted) ∧
      q.pushFront build h t = some ((h, q), .aborted) := by
  constructor
  · rw [pushBack, if_pos hstops]
    rfl
  · rw [pushFront, if_pos hstops]
    rfl

end Push

/-! ## The pops -/

/-- A size that is not 0 is that of a list with elements. -/
theorem Rep.ne_nil (r : Rep h q ps ts) (hsize : q.size ≠ 0) : ts ≠ [] := by
  rintro rfl
  exact hsize r.counted

/-- A queue with elements has a first and a last node. -/
theorem Rep.ends (r : Rep h q ps ts) (hts : ts ≠ []) :
    (∃ a ys, ps = a :: ys) ∧ ∃ xs a, ps = xs ++ [a] := by
  have hps : ps ≠ [] := by
    rintro rfl
    exact hts (List.length_eq_zero_iff.mp r.linked.length_eq.symm)
  obtain ⟨a, ys, rfl⟩ := List.exists_cons_of_ne_nil hps
  exact ⟨⟨a, ys, rfl⟩, (List.eq_nil_or_concat' _).resolve_left hps⟩

/-- A node taken out of the chain and deleted. -/
theorem remove_becomes {h1 h2 : Heap (Node T)} {ys : List Ptr} (r : Rep h q (xs ++ a :: ys) ts)
    (tail' : Ptr)
    (hnext : nextOf h1 = update (nextOf h) (xs.getLastD q.head) (some (ys.headD null)))
    (hprevious : backward (previousOf h1) q.head tail' =
      update (backward (previousOf h) q.head q.tail) (ys.headD null)
        (some (xs.getLastD q.head)))
    (htail : tail' = (xs ++ ys).getLastD null) (hdata : dataOf h1 = dataOf h)
    (hx : h.Exchange h1 (q.head :: (xs ++ a :: ys)) (q.head :: (xs ++ a :: ys)))
    (hfree : h1.free a = some h2) :
    Becomes h q (xs ++ a :: ys) (h2, { q with tail := tail', size := q.size - 1 }) (xs ++ ys)
      (ts.eraseIdx xs.length) where
  rep := by
    have hlt : xs.length < ts.length := by
      rw [← r.linked.length_eq]
      simp
    refine ⟨r.linked.delete hnext hprevious htail hdata hfree, ?_⟩
    rw [count_sub_one hlt, ← r.counted]
  head := rfl
  exchange := by
    have hout : a ∉ q.head :: (xs ++ ys) := r.linked.chain.not_mem_rest
    refine hx.trans (.free hfree (by simp) (fun p => ?_))
    simp only [List.mem_cons, List.mem_append] at hout ⊢
    constructor
    · intro hp
      refine ⟨by tauto, ?_⟩
      rintro rfl
      exact hout hp
    · rintro ⟨hp, hne⟩
      tauto

theorem popBack_spec (r : Rep h q (xs ++ [a]) ts) (hsize : q.size ≠ 0) :
    ∃ σ t, q.popBack h = some (σ, .value t) ∧ ts.getLast? = some t ∧
      Becomes h q (xs ++ [a]) σ xs ts.dropLast := by
  have hlength : ts.length = xs.length + 1 := by
    rw [← r.linked.length_eq, List.length_append, List.length_singleton]
  have htail : q.tail = a := by rw [r.linked.last, List.getLastD_concat]
  obtain ⟨t, ht, hdata⟩ := r.linked.data_getElem (k := xs.length) (a := a) (by simp)
  have hprev : previousOf h a = some (xs.getLastD q.head) := r.linked.previous_of_mem
  have hpred : xs.getLastD q.head ∈ q.head :: (xs ++ [a]) := Chain.pred_mem _ _ _
  have ha : a ∈ q.head :: (xs ++ [a]) := by simp
  obtain ⟨h1, e1, s1⟩ := setNext_spec (r.linked.node_live hpred) null
  have hlive1 : a ∈ h1.live := s1.live ▸ r.linked.node_live ha
  obtain ⟨y, hy⟩ := Heap.mem_live.mp hlive1
  obtain ⟨h2, e2, -⟩ := Heap.free_eq hy
  -- the two branches leave the same links, and `m_tail` at the predecessor or null
  obtain ⟨tail', hpop, hback, hlast⟩ : ∃ tail',
      q.popBack h = some ((h2, { q with tail := tail', size := q.size - 1 }), .value t) ∧
        back q.head tail' = xs.getLastD q.head ∧ tail' = xs.getLastD null := by
    by_cases hfirst : xs.getLastD q.head = q.head
    · rw [hfirst] at e1
      obtain rfl : xs = [] := r.linked.chain.first_of_pred hfirst
      refine ⟨null, ?_, rfl, rfl⟩
      simp only [popBack, hsize, if_false, htail, hdata, hprev, List.getLastD_nil, if_true,
        e1, e2, Option.bind_eq_bind, Option.bind_some, Option.pure_def]
    · refine ⟨xs.getLastD q.head, ?_, if_neg (r.linked.node_ne_null hpred), ?_⟩
      · simp only [popBack, hsize, if_false, htail, hdata, hprev, hfirst, e1, e2,
          Option.bind_eq_bind, Option.bind_some, Option.pure_def]
      · cases xs with
        | nil => exact absurd rfl hfirst
        | cons x xs => rw [List.getLastD_cons, List.getLastD_cons]
  refine ⟨_, t, hpop, ?_, ?_⟩
  · rw [List.getLast?_eq_getElem?, hlength]
    exact ht
  · have hb := remove_becomes r tail' s1.next ?_ (by rwa [List.append_nil]) s1.data
      (s1.exchange _ hpred) e2
    · rwa [List.append_nil, show xs.length = ts.length - 1 by omega,
        List.eraseIdx_length_sub_one] at hb
    · rw [s1.previous, backward, backward, List.headD_nil, update_idem, hback]

theorem popFront_spec {ys : List Ptr} (r : Rep h q (a :: ys) ts) (hsize : q.size ≠ 0) :
    ∃ σ t, q.popFront h = some (σ, .value t) ∧ ts.head? = some t ∧
      Becomes h q (a :: ys) σ ys ts.tail := by
  obtain ⟨t, ht, hdata⟩ := r.linked.data_getElem (k := 0) rfl
  have hfirst : nextOf h q.head = some a := r.linked.chain.first
  have ha : a ∈ q.head :: a :: ys := List.mem_cons_of_mem _ List.mem_cons_self
  have hah : a ≠ q.head := fun he =>
    (List.nodup_cons.mp r.linked.chain.nodup).1 (he ▸ List.mem_cons_self)
  obtain ⟨h1, e1, s1⟩ := setNext_spec (r.linked.node_live List.mem_cons_self) (ys.headD null)
  have r' : Rep h q ([] ++ a :: ys) ts := r
  have hhead : ts.head? = some t := by rw [List.head?_eq_getElem?, ht]
  cases ys with
  | nil =>
      have htail : q.tail = a := r.linked.last
      have hlive1 : a ∈ h1.live := s1.live ▸ r.linked.node_live ha
      obtain ⟨y, hy⟩ := Heap.mem_live.mp hlive1
      obtain ⟨h2, e2, -⟩ := Heap.free_eq hy
      refine ⟨(h2, { q with tail := null, size := q.size - 1 }), t, ?_, hhead, ?_⟩
      · simp only [List.headD_nil] at e1
        simp only [popFront, hsize, if_false, hfirst, hdata, htail, if_true, e1, e2,
          Option.bind_eq_bind, Option.bind_some, Option.pure_def]
      · have hb := remove_becomes r' null s1.next ?_ rfl s1.data
          (s1.exchange _ List.mem_cons_self) e2
        · rwa [List.length_nil, List.eraseIdx_zero] at hb
        · rw [s1.previous, backward, backward, List.headD_nil, update_idem]
          rfl
  | cons b ys =>
      have hnext : nextOf h a = some b := r'.linked.chain.next_of_mem
      have hb : b ∈ q.head :: a :: b :: ys := by simp
      have htail : a ≠ q.tail := by
        rw [r.linked.last, List.getLastD_cons, List.getLastD_cons]
        intro he
        have hmem : ys.getLastD b ∈ b :: ys := List.getLastD_mem_cons
        exact (List.nodup_cons.mp r.linked.chain.nodup_nodes).1 (he ▸ hmem)
      have hnext1 : nextOf h1 a = some b := by rw [s1.next, update_of_ne hah, hnext]
      obtain ⟨h2, e2, s2⟩ := setPrevious_spec (s1.live ▸ r.linked.node_live hb) q.head
      have hlive2 : a ∈ h2.live := s2.live ▸ s1.live ▸ r.linked.node_live ha
      obtain ⟨y, hy⟩ := Heap.mem_live.mp hlive2
      obtain ⟨h3, e3, -⟩ := Heap.free_eq hy
      refine ⟨(h3, { q with tail := q.tail, size := q.size - 1 }), t, ?_, hhead, ?_⟩
      · simp only [List.headD_cons] at e1
        simp only [popFront, hsize, if_false, hfirst, hdata, htail, hnext, e1, hnext1, e2, e3,
          Option.bind_eq_bind, Option.bind_some, Option.pure_def]
      · have hbec := remove_becomes r' q.tail (s2.next.trans s1.next) ?_ ?_
          (s2.data.trans s1.data)
          ((s1.exchange _ List.mem_cons_self).trans (s2.exchange _ hb)) e3
        · rwa [List.length_nil, List.eraseIdx_zero] at hbec
        · have hbn : b ≠ null := r.linked.node_ne_null hb
          rw [s2.previous, s1.previous, backward, backward, List.headD_cons,
            update_comm hbn.symm]
          rfl
        · rw [r.linked.last, List.getLastD_cons]
          rfl

/-! ## The looks -/

theorem front_spec (r : Rep h q (a :: ps) ts) (hsize : q.size ≠ 0) :
    ∃ t, q.front h = some ((h, q), .value t) ∧ ts.head? = some t := by
  obtain ⟨t, ht, hdata⟩ := r.linked.data_getElem (k := 0) rfl
  have hfirst : nextOf h q.head = some a := r.linked.chain.first
  refine ⟨t, ?_, by rw [List.head?_eq_getElem?, ht]⟩
  simp only [front, hsize, if_false, hfirst, hdata, Option.bind_eq_bind, Option.bind_some,
    Option.pure_def]

theorem rear_spec (r : Rep h q (xs ++ [a]) ts) (hsize : q.size ≠ 0) :
    ∃ t, q.rear h = some ((h, q), .value t) ∧ ts.getLast? = some t := by
  have hlength : ts.length = xs.length + 1 := by
    rw [← r.linked.length_eq, List.length_append, List.length_singleton]
  have htail : q.tail = a := by rw [r.linked.last, List.getLastD_concat]
  obtain ⟨t, ht, hdata⟩ := r.linked.data_getElem (k := xs.length) (a := a) (by simp)
  refine ⟨t, ?_, by rw [List.getLast?_eq_getElem?, hlength]; exact ht⟩
  simp only [rear, hsize, if_false, htail, hdata, Option.bind_eq_bind, Option.bind_some,
    Option.pure_def]

/-- From `a`, `k` links forwards. -/
theorem walkLoop_run {e : Ptr} :
    ∀ {xs : List Ptr} {a p : Ptr} {k : Nat}, Seg (nextOf h) a xs e → (a :: xs)[k]? = some p →
      (walkLoop h).run (a, (k : Int)) = .ok p := by
  intro xs
  induction xs with
  | nil =>
      intro a p k _ hk
      cases k with
      | zero =>
          cases hk
          exact While.run_leave rfl
      | succ k => cases hk
  | cons b xs ih =>
      intro a p k hseg hk
      cases k with
      | zero =>
          cases hk
          exact While.run_leave rfl
      | succ k =>
          rw [While.run_next (t := (b, (k : Int)))]
          · exact ih hseg.2 hk
          · have hmin : Int32.minValue.toInt = -2147483648 := rfl
            simp only [walkLoop, hseg.1]
            rw [if_neg (by omega), if_pos (by omega)]
            congr 3
            omega

/-- Counting down from a negative `pos` does not come to an end. -/
theorem walkLoop_negative (p : Ptr) (pos : Int) (hpos : pos < 0) :
    (walkLoop h).run (p, pos) = .error () := by
  induction hn : (pos - Int32.minValue.toInt).toNat using Nat.strongRecOn generalizing p pos with
  | ind n ih =>
      have hne : pos ≠ 0 := Int.ne_of_lt hpos
      cases hnext : nextOf h p with
      | none => exact While.run_fault (by simp only [walkLoop, hne, if_false, hnext])
      | some next =>
          by_cases hmin : Int32.minValue.toInt < pos
          · rw [While.run_next (t := (next, pos - 1))]
            · exact ih _ (by omega) next (pos - 1) (by omega) rfl
            · simp only [walkLoop, hne, if_false, hnext, hmin, if_true]
          · exact While.run_fault (by simp only [walkLoop, hne, if_false, hnext, hmin])

theorem at'_spec (r : Rep h q ps ts) {pos : Int32} (hpos : 0 ≤ pos.toInt)
    (hin : ¬ pos.toUInt32 ≥ q.size) :
    q.at' h pos = some ((h, q), ts[pos.toInt.toNat]?.elim .outOfRange .value) := by
  have hlt : pos.toInt.toNat < ps.length := by
    have hguard : pos.toUInt32.toNat < q.size.toNat := UInt32.lt_iff_toNat_lt.mp
      (UInt32.not_le.mp hin)
    rw [toNat_toUInt32 hpos, r.counted] at hguard
    rw [r.linked.length_eq]
    exact Nat.lt_of_lt_of_le hguard (count_toNat_le ts)
  obtain ⟨p, hp⟩ : ∃ p, ps[pos.toInt.toNat]? = some p := ⟨_, List.getElem?_eq_getElem hlt⟩
  obtain ⟨t, ht, hdata⟩ := r.linked.data_getElem hp
  cases ps with
  | nil => cases hp
  | cons a ps =>
      have hseg := r.linked.chain.forward
      have hwalk := walkLoop_run hseg.2 hp
      rw [Int.toNat_of_nonneg hpos] at hwalk
      rw [at', if_neg hin, hseg.1, ht]
      simp only [hwalk, Except.toOption, hdata, Option.bind_eq_bind, Option.bind_some,
        Option.pure_def, Option.elim_some]

/-- A negative position that passes the guard leaves `int`, or the chain. -/
theorem at'_negative {pos : Int32} (hpos : pos.toInt < 0) (hin : pos.toUInt32 < q.size) :
    q.at' h pos = none := by
  have hguard : ¬ pos.toUInt32 ≥ q.size := by
    show ¬ q.size ≤ pos.toUInt32
    rw [UInt32.le_iff_toNat_le]
    exact Nat.not_le_of_lt (UInt32.lt_iff_toNat_lt.mp hin)
  rw [at', if_neg hguard]
  cases nextOf h q.head with
  | none => rfl
  | some ptr =>
      simp only [walkLoop_negative ptr _ hpos, Except.toOption, Option.bind_eq_bind,
        Option.bind_some, Option.bind_none]

end LearnSpace.DataStructure.Queue
