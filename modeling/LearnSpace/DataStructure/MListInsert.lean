import LearnSpace.DataStructure.MListSequence

/-!
# `insert` of the list

`insert` has a branch of its own for the front of an empty list, the front of a list with
elements, the back, and the middle. The second of them links the new node to the first one
in both directions, but never the head node to the new one: forwards the list is what it
was, while `m_size` counts the element. Everywhere else the element arrives
(`insert_right_iff`).
-/

namespace LearnSpace.DataStructure.MList

open Keel Function

variable {T : Type} {h : Heap (Node T)} {l : MList} {ps : List Ptr} {ts : List T}

/-- `insert`. -/
def insert [Inhabited T] (l : MList) (h : Heap (Node T)) (pos : UInt32) (t : T) :
    Option (State T × Answer T) := do
  if pos ≥ l.size + 1 then
    return ((h, l), .done)
  if l.size + 1 ≥ maxSize then
    return ((h, l), .done)
  let node := (newNode h).1
  let h ← setData (newNode h).2 node t
  if pos = 0 then
    let nextPtr ← nextOf h l.head
    if nextPtr = null then
      let h ← setNext h l.head node
      let h ← setPrevious h node l.head
      return ((h, { l with tail := node, size := l.size + 1 }), .done)
    else
      -- `m_head->next` keeps pointing to the old first node
      let h ← setNext h node nextPtr
      let h ← setPrevious h nextPtr node
      let h ← setPrevious h node l.head
      return ((h, { l with size := l.size + 1 }), .done)
  else if pos = l.size then
    let h ← setNext h l.tail node
    let h ← setPrevious h node l.tail
    return ((h, { l with tail := node, size := l.size + 1 }), .done)
  else
    let posNode ← l.findNode h pos
    let previous ← previousOf h posNode
    let h ← setNext h previous node
    let previous ← previousOf h posNode
    let h ← setPrevious h node previous
    let h ← setPrevious h posNode node
    let h ← setNext h node posNode
    return ((h, { l with size := l.size + 1 }), .done)

/-- What `insert` is for, in a list that holds `ts`: within the size limit the element gets
its place, and the two chains and the size agree; behind the end nothing changes. -/
def InsertRight [Inhabited T] (h : Heap (Node T)) (l : MList) (ts : List T) (pos : UInt32)
    (t : T) : Prop :=
  (pos.toNat ≤ ts.length → ts.length + 1 < maxSize.toNat →
    ∃ σ qs, l.insert h pos t = some (σ, .done) ∧
      Ordered σ.1 σ.2.head σ.2.tail σ.2.size qs
        (ts.take pos.toNat ++ t :: ts.drop pos.toNat)) ∧
  (ts.length < pos.toNat → l.insert h pos t = some ((h, l), .done))

/-! ## The guards and the new node -/

section Insert

variable {t : T} {h1 : Heap (Node T)} {xs ys : List Ptr} {a : Ptr} {pos : UInt32}

/-- The size after an insertion within the limit. -/
theorem size_insert (s : Sound h l ps ts) (hroom : ts.length + 1 < maxSize.toNat) (i : Nat) :
    (l.size + 1).toNat = (ts.take i ++ t :: ts.drop i).length := by
  rw [toNat_succ s.counted (by omega), List.length_append, List.length_cons, ← Nat.add_assoc,
    ← List.length_append, List.take_append_drop]

/-- Both guards let a position in the list or at its end pass, within the size limit. -/
theorem insert_guards (s : Sound h l ps ts) (hpos : pos.toNat ≤ ts.length)
    (hroom : ts.length + 1 < maxSize.toNat) :
    ¬ pos ≥ l.size + 1 ∧ ¬ l.size + 1 ≥ maxSize := by
  have hsize := toNat_succ s.counted (by omega)
  constructor
  · rw [ge_iff_le, UInt32.le_iff_toNat_le, hsize]
    omega
  · rw [ge_iff_le, UInt32.le_iff_toNat_le, hsize]
    omega

variable [Inhabited T]

/-- A node no link leads to leaves a list as it is. -/
theorem Sound.new (s : Sound h l ps ts)
    (i : Inserted h h1 (l.head :: ps) (newNode h).1
      (update (nextOf h) (newNode h).1 (some null))
      (update (previousOf h) (newNode h).1 (some null)) t) :
    Sound h1 l ps ts := by
  have hlive : ∀ p ∈ l.head :: ps, p ∈ h.live := fun p hp => s.linked.node_live hp
  have hne : ∀ p ∈ l.head :: ps, p ≠ (newNode h).1 :=
    fun p hp he => i.notMem hlive (he ▸ hp)
  refine ⟨s.linked.congr ?_ ?_ ?_, s.counted⟩
  · intro p hp
    rw [i.next, update_of_ne (hne p hp)]
  · intro p hp
    rw [i.previous, update_of_ne (hne p (List.mem_cons_of_mem _ hp))]
  · intro p hp
    rw [i.data, update_of_ne (hne p (List.mem_cons_of_mem _ hp))]

/-! ## The branches -/

/-- The front of an empty list. -/
theorem insert_empty (s : Sound h l [] ([] : List T)) (hroom : 1 < maxSize.toNat) (t : T) :
    ∃ σ qs, l.insert h 0 t = some (σ, .done) ∧ Sound σ.1 σ.2 qs [t] := by
  obtain ⟨hpos, hsize⟩ := insert_guards s (show (0 : UInt32).toNat ≤ _ from Nat.le_refl _) hroom
  have hlive : ∀ p ∈ l.head :: [], p ∈ h.live := fun p hp => s.linked.node_live hp
  obtain ⟨h1, e1, i1⟩ := newNode_inserted h (l.head :: []) t
  have hfirst : nextOf h1 l.head = some null := (s.new i1).linked.chain.first
  obtain ⟨h2, e2, i2⟩ := i1.setNext hlive (.inr List.mem_cons_self) (newNode h).1
  obtain ⟨h3, e3, i3⟩ := i2.setPrevious hlive (.inl rfl) l.head
  rw [update_idem] at i3
  refine ⟨(h3, { l with tail := (newNode h).1, size := l.size + 1 }), [(newNode h).1], ?_, ?_⟩
  · simp only [insert, hpos, if_false, hsize, e1, if_true, hfirst, e2, e3, Option.bind_eq_bind,
      Option.bind_some, Option.pure_def]
  · exact ⟨s.linked.pushBack (i3.notMem hlive) i3.ne_null i3.next i3.previous i3.data,
      size_insert (t := t) s hroom 0⟩

/-- The back of a list with elements. -/
theorem insert_back (s : Sound h l ps ts) (hts : ts ≠ []) (hroom : ts.length + 1 < maxSize.toNat)
    (t : T) :
    ∃ σ qs, l.insert h l.size t = some (σ, .done) ∧ Sound σ.1 σ.2 qs (ts ++ [t]) := by
  obtain ⟨hpos, hsize⟩ := insert_guards s (Nat.le_of_eq s.counted) hroom
  have hzero : l.size ≠ 0 := mt (size_eq_zero_iff s.counted).mp hts
  have hlive : ∀ p ∈ l.head :: ps, p ∈ h.live := fun p hp => s.linked.node_live hp
  have hback : l.tail = ps.getLastD l.head := by
    have htail : l.tail ≠ null := by
      rw [Ne, s.linked.tail_eq_null_iff, ← List.length_eq_zero_iff, s.linked.length_eq,
        List.length_eq_zero_iff]
      exact hts
    rw [← s.linked.back_eq, back, if_neg htail]
  obtain ⟨h1, e1, i1⟩ := newNode_inserted h (l.head :: ps) t
  obtain ⟨h2, e2, i2⟩ := i1.setNext hlive (.inr List.getLastD_mem_cons) (newNode h).1
  obtain ⟨h3, e3, i3⟩ := i2.setPrevious hlive (.inl rfl) (ps.getLastD l.head)
  rw [update_idem] at i3
  refine ⟨(h3, { l with tail := (newNode h).1, size := l.size + 1 }), ps ++ [(newNode h).1],
    ?_, ?_⟩
  · rw [← hback] at e2 e3
    simp only [insert, hpos, if_false, hsize, e1, hzero, if_true, e2, e3, Option.bind_eq_bind,
      Option.bind_some, Option.pure_def]
  · refine ⟨s.linked.pushBack (i3.notMem hlive) i3.ne_null i3.next i3.previous i3.data, ?_⟩
    rw [List.length_append]
    exact toNat_succ s.counted (by omega)

/-- The middle: a position that is not the first and has a node. -/
theorem insert_inner (s : Sound h l (xs ++ a :: ys) ts) (hxs : xs ≠ [])
    (hpos : pos.toNat = xs.length) (hroom : ts.length + 1 < maxSize.toNat) (t : T) :
    ∃ σ qs, l.insert h pos t = some (σ, .done) ∧
      Sound σ.1 σ.2 qs (ts.take xs.length ++ t :: ts.drop xs.length) := by
  have hlength := s.linked.length_eq
  rw [List.length_append, List.length_cons] at hlength
  have hlt : pos.toNat < ts.length := by omega
  obtain ⟨hin, hsize⟩ := insert_guards s (Nat.le_of_lt hlt) hroom
  have hzero : pos ≠ 0 := by
    rw [Ne, eq_zero_iff_toNat, hpos, List.length_eq_zero_iff]
    exact hxs
  have hne : pos ≠ l.size := by
    rw [Ne, ← UInt32.toNat_inj, s.counted]
    omega
  have hlive : ∀ p ∈ l.head :: (xs ++ a :: ys), p ∈ h.live :=
    fun p hp => s.linked.node_live hp
  have ha : a ∈ l.head :: (xs ++ a :: ys) := by simp
  have hpred : xs.getLastD l.head ∈ l.head :: (xs ++ a :: ys) := Chain.pred_mem _ _ _
  obtain ⟨h1, e1, i1⟩ := newNode_inserted h (l.head :: (xs ++ a :: ys)) t
  have hn := i1.notMem hlive
  have hnpred : xs.getLastD l.head ≠ (newNode h).1 := fun he => hn (he ▸ hpred)
  have hfind : l.findNode h1 pos = some a :=
    findNode_spec (s.new i1) (by simp [hpos])
  have hprev1 : previousOf h1 a = some (xs.getLastD l.head) := (s.new i1).linked.previous_of_mem
  obtain ⟨h2, e2, i2⟩ := i1.setNext hlive (.inr hpred) (newNode h).1
  have hprev2 : previousOf h2 a = some (xs.getLastD l.head) := by
    rw [i2.previous, ← i1.previous, hprev1]
  obtain ⟨h3, e3, i3⟩ := i2.setPrevious hlive (.inl rfl) (xs.getLastD l.head)
  obtain ⟨h4, e4, i4⟩ := i3.setPrevious hlive (.inr ha) (newNode h).1
  obtain ⟨h5, e5, i5⟩ := i4.setNext hlive (.inl rfl) a
  refine ⟨(h5, { l with size := l.size + 1 }), xs ++ (newNode h).1 :: a :: ys, ?_, ?_⟩
  · simp only [insert, hin, if_false, hsize, e1, hzero, hne, hfind, hprev1, e2, hprev2, e3, e4,
      e5, Option.bind_eq_bind, Option.bind_some, Option.pure_def]
  · refine ⟨s.linked.pushBefore hn i5.ne_null ?_ ?_ i5.data, size_insert s hroom _⟩
    · rw [i5.next, update_comm hnpred, update_idem]
    · rw [i5.previous, update_idem]

/-- The front of a list with elements: forwards the list stays what it was. -/
theorem insert_front (s : Sound h l ps ts) (hts : ts ≠ [])
    (hroom : ts.length + 1 < maxSize.toNat) (t : T) :
    ∃ h', l.insert h 0 t = some ((h', { l with size := l.size + 1 }), .done) ∧
      Seg (nextOf h') l.head ps null := by
  obtain ⟨hpos, hsize⟩ := insert_guards s (show (0 : UInt32).toNat ≤ _ from Nat.zero_le _) hroom
  cases ps with
  | nil =>
      have hlength := s.linked.length_eq
      exact absurd (List.length_eq_zero_iff.mp hlength.symm) hts
  | cons a ys =>
      have hlive : ∀ p ∈ l.head :: a :: ys, p ∈ h.live := fun p hp => s.linked.node_live hp
      have ha : a ∈ l.head :: a :: ys := by simp
      have hnull : a ≠ null := s.linked.node_ne_null ha
      obtain ⟨h1, e1, i1⟩ := newNode_inserted h (l.head :: a :: ys) t
      have hfirst : nextOf h1 l.head = some a := (s.new i1).linked.chain.first
      obtain ⟨h2, e2, i2⟩ := i1.setNext hlive (.inl rfl) a
      obtain ⟨h3, e3, i3⟩ := i2.setPrevious hlive (.inr ha) (newNode h).1
      obtain ⟨h4, e4, i4⟩ := i3.setPrevious hlive (.inl rfl) l.head
      refine ⟨h4, ?_, ?_⟩
      · simp only [insert, hpos, if_false, hsize, e1, if_true, hfirst, hnull, e2, e3, e4,
          Option.bind_eq_bind, Option.bind_some, Option.pure_def]
      · rw [i4.next, update_idem]
        exact s.linked.chain.forward.update_frame (i4.notMem hlive)

/-! ## Where the element arrives -/

/-- Behind the end of the list nothing changes. -/
theorem insert_behind (s : Sound h l ps ts) (hpos : ts.length < pos.toNat) (t : T) :
    l.insert h pos t = some ((h, l), .done) := by
  have hge : pos ≥ l.size + 1 := by
    have hlt := pos.toNat_lt
    rw [ge_iff_le, UInt32.le_iff_toNat_le, UInt32.toNat_add, s.counted, UInt32.toNat_one]
    omega
  rw [insert, if_pos hge]
  rfl

/-- Anywhere but at the front of a list with elements the element arrives. -/
theorem insert_spec (s : Sound h l ps ts) (hpos : pos.toNat ≤ ts.length)
    (hroom : ts.length + 1 < maxSize.toNat) (hgood : pos ≠ 0 ∨ ts = []) (t : T) :
    ∃ σ qs, l.insert h pos t = some (σ, .done) ∧
      Sound σ.1 σ.2 qs (ts.take pos.toNat ++ t :: ts.drop pos.toNat) := by
  by_cases hts : ts = []
  · subst hts
    obtain rfl : ps = [] := List.length_eq_zero_iff.mp s.linked.length_eq
    obtain rfl : pos = 0 := eq_zero_iff_toNat.mpr (Nat.le_zero.mp hpos)
    exact insert_empty s hroom t
  · have hzero : pos.toNat ≠ 0 := by
      rw [Ne, ← eq_zero_iff_toNat]
      exact hgood.resolve_right hts
    by_cases hend : pos.toNat = ts.length
    · obtain rfl : pos = l.size := UInt32.toNat_inj.mp (hend.trans s.counted.symm)
      rw [hend, List.take_length, List.drop_length]
      exact insert_back s hts hroom t
    · obtain ⟨xs, a, ys, rfl, hlength⟩ := s.split (show pos.toNat < ts.length by omega)
      rw [hlength]
      refine insert_inner s ?_ hlength hroom t
      rw [Ne, ← List.length_eq_zero_iff, ← hlength]
      exact hzero

/-- At the front of a list with elements the element is counted and not found. -/
theorem insert_front_wrong (s : Sound h l ps ts) (hts : ts ≠ [])
    (hroom : ts.length + 1 < maxSize.toNat) (t : T) : ¬ InsertRight h l ts 0 t := by
  rintro ⟨hright, -⟩
  obtain ⟨h', hinsert, hseg⟩ := insert_front s hts hroom t
  obtain ⟨σ, qs, hinsert', ho⟩ := hright (Nat.zero_le _) hroom
  rw [hinsert] at hinsert'
  cases hinsert'
  -- forwards there are as many nodes as before
  have hqs : qs = ps := Seg.unique (nextOf_null h') ho.forward hseg
  have hlength := congrArg List.length ho.content
  rw [hqs, List.length_map, List.length_map, s.linked.length_eq] at hlength
  simp at hlength

/-- **Insertion into a list.** In a well linked list `insert` does what it is for, except at
the front of a list with elements. -/
theorem insert_right_iff (s : Sound h l ps ts) (pos : UInt32) (t : T) :
    InsertRight h l ts pos t ↔ ¬ (pos = 0 ∧ ts ≠ [] ∧ ts.length + 1 < maxSize.toNat) := by
  constructor
  · rintro hright ⟨rfl, hts, hroom⟩
    exact insert_front_wrong s hts hroom t hright
  · intro hgood
    refine ⟨fun hpos hroom => ?_, fun hpos => insert_behind s hpos t⟩
    obtain ⟨σ, qs, hinsert, s'⟩ := insert_spec s hpos hroom (by tauto) t
    exact ⟨σ, qs, hinsert, s'.linked.ordered s'.counted⟩

end Insert

/-- In a list of one element there is room behind it, but not in front. -/
theorem insert_right_iff_single :
    ∃ σ ps, (list Nat).run (list Nat).start [.append 7] = some (σ, [.done]) ∧
      Sound σ.1 σ.2 ps [7] ∧ InsertRight σ.1 σ.2 [7] 1 9 ∧ ¬ InsertRight σ.1 σ.2 [7] 0 9 := by
  obtain ⟨σ, ps, hrun, r⟩ := run_rep (T := Nat) [.append 7]
  have s : Sound σ.1 σ.2 ps [7] := r.sound
  refine ⟨σ, ps, hrun, s, (insert_right_iff s 1 9).mpr (by decide), ?_⟩
  rw [insert_right_iff s 0 9]
  decide

/-- What is put in in front of one element is not there. -/
theorem insert_front_lost :
    ∃ σ ps, (list Nat).run (list Nat).start [.append 7] = some (σ, [.done]) ∧
      Ordered σ.1 σ.2.head σ.2.tail σ.2.size ps [7] ∧ ¬ InsertRight σ.1 σ.2 [7] 0 9 := by
  obtain ⟨σ, ps, hrun, r⟩ := run_rep (T := Nat) [.append 7]
  have s : Sound σ.1 σ.2 ps [7] := r.sound
  exact ⟨σ, ps, hrun, s.linked.ordered s.counted,
    insert_front_wrong s (by decide) (by decide) 9⟩

/-- Both positions of the list then answer with the old element. -/
example :
    ((list Nat).run (list Nat).start [.append 7]).bind (fun r =>
      (r.1.2.insert r.1.1 0 9).bind (fun q =>
        ((list Nat).run q.1 [.size, .at' 0, .at' 1]).map Prod.snd)) =
      some [.size 2, .value 7, .value 7] := by
  rfl

end LearnSpace.DataStructure.MList
