import LearnSpace.DataStructure.MListSequence

/-!
# `removeAt` of a range of the list

The last node of the range is found in two ways. When the range reaches the end of the list
it is the tail, and the removal leaves the first nodes, in order. When it does not, a loop
is to count up to it, but every turn of it reads the link of the same node, the first of the
range: with any `len` but 0 the last node is then the second one, so two nodes are deleted,
and with 0 it is the first, which is deleted. The node behind keeps its link backwards to
the deleted one. The range reaches the end in the sense of the code when `pos + len`, a sum
of 32 bits, does (`removeRange_right_iff`).
-/

namespace LearnSpace.DataStructure.MList

open Keel Function

variable {T : Type} {h h' : Heap (Node T)} {l : MList} {ps xs ys : List Ptr} {ts : List T}
  {a b : Ptr}

/-- The loop `while (moveLen--) ptr = node->next`. -/
def moveLoop (h : Heap (Node T)) (node : Ptr) : (moveLen : Nat) → (ptr : Ptr) → Option Ptr
  | 0, ptr => some ptr
  | moveLen + 1, _ => do
    let ptr ← nextOf h node
    moveLoop h node moveLen ptr

/-- The loop that deletes from a node up to another, each node after its link was read. -/
def deleteUntil (tail : Ptr) : While (Heap (Node T) × Ptr) Unit (Heap (Node T)) where
  body s :=
    if s.2 = tail then .ok (.inr s.1)
    else
      match nextOf s.1 s.2, s.1.free s.2 with
      | some next, some heap => .ok (.inl (heap, next))
      | _, _ => .error ()
  measure s := s.1.live.card
  decreases s s' h := by
    split at h
    · cases h
    · split at h
      · cases h
        exact Heap.card_live_free ‹_›
      · cases h

/-- `removeAt(uint, uint)`. -/
def removeRange (l : MList) (h : Heap (Node T)) (pos len : UInt32) :
    Option (State T × Answer T) := do
  if pos ≥ l.size then
    return ((h, l), .done)
  let len := if pos + len ≥ l.size then l.size - pos else len
  let node ← l.findNode h pos
  let tail ← (if pos + len = l.size then some l.tail else moveLoop h node len.toNat node)
  let newTail ← (if tail = l.tail then do
      let previous ← previousOf h node
      if previous = l.head then
        return null
      else
        return previous
    else
      return l.tail)
  let previous ← previousOf h node
  let next ← nextOf h tail
  let h ← setNext h previous next
  let next ← nextOf h tail
  let h ← (if next ≠ null then do
      -- not `tail->next->previous`
      let previous ← previousOf h node
      setPrevious h tail previous
    else
      return h)
  let h ← ((deleteUntil tail).run (h, node)).toOption
  let h ← h.free tail
  return ((h, { l with tail := newTail, size := l.size - len }), .done)

/-- The nodes or elements of a list without those of a range. -/
def without {α : Type} (xs : List α) (pos len : Nat) : List α := xs.take pos ++ xs.drop (pos + len)

theorem without_append {α : Type} (xs ys : List α) (n : Nat) :
    without (xs ++ ys) xs.length n = xs ++ ys.drop n := by
  rw [without, List.take_left, ← List.drop_drop, List.drop_left]

theorem without_to_end {α : Type} {xs : List α} {pos len : Nat} (h : xs.length ≤ pos + len) :
    without xs pos len = xs.take pos := by
  rw [without, List.drop_eq_nil_of_le h, List.append_nil]

/-- What `removeAt` of a range is for, in a list that holds `ts` in the nodes `ps`: the
range is gone, its nodes and no others are deleted, and the two chains, the tail and the
size agree; where there is nothing to remove nothing changes. -/
def RemoveRangeRight (h : Heap (Node T)) (l : MList) (ps : List Ptr) (ts : List T)
    (pos len : UInt32) : Prop :=
  ∃ σ, l.removeRange h pos len = some (σ, .done) ∧
    Ordered σ.1 σ.2.head σ.2.tail σ.2.size (without ps pos.toNat len.toNat)
      (without ts pos.toNat len.toNat) ∧
    (∀ p, p ∈ σ.1.live ↔ p ∈ h.live ∧ p ∉ (ps.drop pos.toNat).take len.toNat) ∧
    (ts.length ≤ pos.toNat ∨ len = 0 → σ = (h, l))

/-! ## The loops -/

/-- Every turn reads the same link, so one is as good as many. -/
theorem moveLoop_succ (hnext : nextOf h a = some b) (n : Nat) (ptr : Ptr) :
    moveLoop h a (n + 1) ptr = some b := by
  induction n generalizing ptr with
  | zero =>
      rw [moveLoop, hnext]
      rfl
  | succ n ih =>
      rw [moveLoop, hnext]
      exact ih b

/-- The loop and the `delete` behind it delete the nodes of a chain, and nothing else. -/
theorem deleteUntil_free :
    ∀ {xs : List Ptr} {a : Ptr} {h : Heap (Node T)}, (a :: xs).Nodup → Seg (nextOf h) a xs b →
      ∃ h1 h2, (deleteUntil (xs.getLastD a)).run (h, a) = .ok h1 ∧
        h1.free (xs.getLastD a) = some h2 ∧ h.Exchange h2 (a :: xs) [] := by
  intro xs
  induction xs with
  | nil =>
      intro a h hnd hseg
      obtain ⟨y, hy⟩ := Heap.mem_live.mp (mem_live_of_nextOf hseg)
      obtain ⟨h', hfree, -⟩ := Heap.free_eq hy
      refine ⟨h, h', ?_, hfree, .free hfree List.mem_cons_self (by simp)⟩
      rw [While.run_leave (a := h)]
      simp only [deleteUntil, List.getLastD_nil, if_true]
  | cons x xs ih =>
      intro a h hnd hseg
      obtain ⟨ha, hnd'⟩ := List.nodup_cons.mp hnd
      have hlast : xs.getLastD x ∈ x :: xs := List.getLastD_mem_cons
      have hne : a ≠ xs.getLastD x := fun he => ha (he ▸ hlast)
      obtain ⟨y, hy⟩ := Heap.mem_live.mp (mem_live_of_nextOf hseg.1)
      obtain ⟨h', hfree, -⟩ := Heap.free_eq hy
      have hseg' : Seg (nextOf h') x xs b := by
        rw [nextOf, Heap.field_free hfree]
        exact hseg.2.update_frame ha
      obtain ⟨h1, h2, hrun, hfree', hx⟩ := ih hnd' hseg'
      rw [List.getLastD_cons]
      refine ⟨h1, h2, ?_, hfree', (Heap.Exchange.free hfree List.mem_cons_self ?_).trans hx⟩
      · rw [While.run_next (t := (h', x)), hrun]
        simp only [deleteUntil, if_neg hne, hseg.1, hfree]
      · intro r
        constructor
        · intro hr
          exact ⟨List.mem_cons_of_mem _ hr, fun he => ha (he ▸ hr)⟩
        · rintro ⟨hr, hner⟩
          exact (List.mem_cons.mp hr).resolve_left hner

/-! ## What the method does -/

/-- The length as the code bounds it. -/
def removed (l : MList) (pos len : UInt32) : UInt32 :=
  if pos + len ≥ l.size then l.size - pos else len

/-- The last node of the range as the code finds it. -/
def lastNode (l : MList) (h : Heap (Node T)) (node : Ptr) (pos len : UInt32) : Option Ptr :=
  if pos + removed l pos len = l.size then some l.tail
  else moveLoop h node (removed l pos len).toNat node

/-- The nodes `a :: ms` are taken out between `xs` and `ys` and deleted: the node in front
is linked past them, and where one follows, the last of them gets a link backwards. -/
structure TakenOut (h h' : Heap (Node T)) (head : Ptr) (xs : List Ptr) (a : Ptr)
    (ms ys : List Ptr) : Prop where
  links : ∃ h1 : Heap (Node T),
    nextOf h1 = update (nextOf h) (xs.getLastD head) (some (ys.headD null)) ∧
    (previousOf h1 = if ys = [] then previousOf h
      else update (previousOf h) (ms.getLastD a) (some (xs.getLastD head))) ∧
    dataOf h1 = dataOf h ∧ h1.live = h.live ∧ h1.Exchange h' (a :: ms) []

/-- Behind the search for the last node. -/
theorem removeRange_run {ms : List Ptr} {pos len : UInt32}
    (s : Sound h l (xs ++ a :: (ms ++ ys)) ts) (hpos : pos.toNat = xs.length)
    (htail : l.lastNode h a pos len = some (ms.getLastD a)) :
    ∃ h', l.removeRange h pos len = some ((h',
        { l with
          tail := if ms.getLastD a = l.tail then xs.getLastD null else l.tail
          size := l.size - removed l pos len }), .done) ∧
      TakenOut h h' l.head xs a ms ys := by
  have hlength := s.linked.length_eq
  rw [List.length_append, List.length_cons] at hlength
  have hin : ¬ pos ≥ l.size := by
    rw [ge_size_iff s.counted]
    omega
  have hfind : l.findNode h pos = some a := findNode_spec s (by simp [hpos])
  have hprev : previousOf h a = some (xs.getLastD l.head) := s.linked.previous_of_mem
  have hpred : xs.getLastD l.head ∈ l.head :: (xs ++ a :: (ms ++ ys)) := Chain.pred_mem _ _ _
  have hlast : ms.getLastD a ∈ a :: ms := List.getLastD_mem_cons
  have hlive : ms.getLastD a ∈ h.live := by
    refine s.linked.node_live (List.mem_cons_of_mem _ (List.mem_append_right _ ?_))
    rw [← List.cons_append]
    exact List.mem_append_left _ hlast
  have hseg : Seg (nextOf h) a ms (ys.headD null) :=
    (Seg.append_cons_iff.mp s.linked.chain.forward).2.init
  obtain ⟨hnd, hout⟩ : (a :: ms).Nodup ∧ xs.getLastD l.head ∉ a :: ms := by
    have hall := s.linked.chain.nodup
    rw [← List.cons_append, ← List.cons_append] at hall
    refine ⟨hall.of_append_right.of_append_left, fun hmem => ?_⟩
    exact List.disjoint_of_nodup_append hall List.getLastD_mem_cons
      (List.mem_append_left _ hmem)
  have hne : ms.getLastD a ≠ xs.getLastD l.head := fun he => hout (he ▸ hlast)
  have hnewTail : (if ms.getLastD a = l.tail then
        if xs.getLastD l.head = l.head then some null else some (xs.getLastD l.head)
      else some l.tail) =
      some (if ms.getLastD a = l.tail then xs.getLastD null else l.tail) := by
    by_cases hcase : ms.getLastD a = l.tail
    · rw [if_pos hcase, if_pos hcase, ← s.linked.head_or_last]
      exact (apply_ite some _ _ _).symm
    · rw [if_neg hcase, if_neg hcase]
  rw [lastNode, removed] at htail
  obtain ⟨h1, e1, s1⟩ := setNext_spec (s.linked.node_live hpred) (ys.headD null)
  have hnext1 : nextOf h1 (ms.getLastD a) = some (ys.headD null) := by
    rw [s1.next, update_of_ne hne, hseg.last]
  have hseg1 : Seg (nextOf h1) a ms (ys.headD null) := by
    rw [s1.next]
    exact hseg.update_frame hout
  cases ys with
  | nil =>
      obtain ⟨h2, h3, e2, e3, hx⟩ := deleteUntil_free hnd hseg1
      rw [List.headD_nil] at e1 hnext1
      have hnext : nextOf h (ms.getLastD a) = some null := hseg.last
      refine ⟨h3, ?_, h1, s1.next, s1.previous, s1.data, s1.live, hx⟩
      simp only [removeRange, hin, if_false, hfind, htail, hprev, hnewTail, hnext, e1, hnext1, e2,
        e3, removed, ne_eq, not_true_eq_false, Except.toOption, Option.bind_eq_bind,
        Option.bind_some, Option.pure_def]
  | cons c zs =>
      have hc : c ≠ null := by
        refine s.linked.node_ne_null (List.mem_cons_of_mem _ (List.mem_append_right _ ?_))
        simp
      obtain ⟨h2, e2, s2⟩ := setPrevious_spec (s1.live ▸ hlive) (xs.getLastD l.head)
      obtain ⟨h3, h4, e3, e4, hx⟩ := deleteUntil_free hnd (s2.next ▸ hseg1)
      rw [List.headD_cons] at e1 hnext1
      have hnext : nextOf h (ms.getLastD a) = some c := hseg.last
      have hprev1 : previousOf h1 a = some (xs.getLastD l.head) := by rw [s1.previous, hprev]
      refine ⟨h4, ?_, h2, s2.next.trans s1.next, ?_, s2.data.trans s1.data,
        s2.live.trans s1.live, hx⟩
      · simp only [removeRange, hin, if_false, hfind, htail, hprev, hnewTail, hnext, e1, hnext1, hc,
          hprev1, e2, e3, e4, removed, ne_eq, not_false_eq_true, if_true, Except.toOption,
          Option.bind_eq_bind, Option.bind_some, Option.pure_def]
      · rw [s2.previous, s1.previous, if_neg (List.cons_ne_nil _ _)]

/-- A deleted node is dead, every other one is what it was. -/
theorem TakenOut.live {ms : List Ptr} (k : TakenOut h h' l.head xs a ms ys) (p : Ptr) :
    p ∈ h'.live ↔ p ∈ h.live ∧ p ∉ a :: ms := by
  obtain ⟨h1, -, -, -, hlive, hx⟩ := k.links
  rw [← hlive, Heap.mem_live, Heap.mem_live]
  constructor
  · rintro ⟨y, hy⟩
    have hp : p ∉ a :: ms := by
      intro hmem
      rw [hx.released p hmem List.not_mem_nil] at hy
      cases hy
    exact ⟨⟨y, (hx.frame p hp List.not_mem_nil).symm.trans hy⟩, hp⟩
  · rintro ⟨⟨y, hy⟩, hp⟩
    exact ⟨y, (hx.frame p hp List.not_mem_nil).trans hy⟩

/-! ## A range that reaches the end -/

theorem removeRange_end {pos len : UInt32} (s : Sound h l ps ts) (hpos : pos.toNat < ts.length)
    (hend : ts.length ≤ (pos + len).toNat) :
    ∃ σ, l.removeRange h pos len = some (σ, .done) ∧
      Sound σ.1 σ.2 (ps.take pos.toNat) (ts.take pos.toNat) ∧
      ∀ p, p ∈ σ.1.live ↔ p ∈ h.live ∧ p ∉ ps.drop pos.toNat := by
  obtain ⟨xs, a, ms, rfl, hlength⟩ := s.split hpos
  have hlast : l.tail = ms.getLastD a := by
    rw [s.linked.last, Chain.getLastD_append_cons]
  have hremoved : removed l pos len = l.size - pos := by
    rw [removed, if_pos]
    rw [ge_iff_le, UInt32.le_iff_toNat_le, s.counted]
    exact hend
  have htail : l.lastNode h a pos len = some (ms.getLastD a) := by
    rw [lastNode, hremoved, UInt32.add_comm, UInt32.sub_add_cancel, if_pos rfl, hlast]
  have s' : Sound h l (xs ++ a :: (ms ++ [])) ts := by rwa [List.append_nil]
  obtain ⟨h', hrun, k⟩ := removeRange_run s' hlength htail
  rw [hlast, if_pos rfl, hremoved] at hrun
  refine ⟨_, hrun, ⟨?_, ?_⟩, ?_⟩
  · obtain ⟨h1, hnext, hprevious, hdata, -, hx⟩ := k.links
    rw [if_pos rfl] at hprevious
    have hcut := s.linked.cut hnext hprevious hdata rfl
    rw [hlength, List.take_left]
    refine hcut.frame (fun p hp => hx.frame p (fun hmem => ?_) List.not_mem_nil)
    have hnd := s.linked.chain.nodup
    rw [← List.cons_append] at hnd
    exact List.disjoint_of_nodup_append hnd hp hmem
  · have hsize := s.counted
    have hlt' := l.size.toNat_lt
    show (l.size - (l.size - pos)).toNat = _
    rw [UInt32.toNat_sub, UInt32.toNat_sub, List.length_take,
      Nat.min_eq_left (Nat.le_of_lt hpos)]
    omega
  · intro p
    rw [hlength, List.drop_left]
    exact k.live p

/-! ## A range that does not -/

/-- A range that ends in front of the end in the sense of the code is not bounded. -/
theorem removed_inner {pos len : UInt32} (s : Sound h l ps ts)
    (hend : (pos + len).toNat < ts.length) :
    removed l pos len = len ∧
      ∀ node, l.lastNode h node pos len = moveLoop h node len.toNat node := by
  have hne : pos + len ≠ l.size := by
    rw [Ne, ← UInt32.toNat_inj, s.counted]
    exact Nat.ne_of_lt hend
  have hremoved : removed l pos len = len := by
    rw [removed, if_neg]
    rw [ge_iff_le, UInt32.le_iff_toNat_le, s.counted]
    exact Nat.not_le_of_lt hend
  exact ⟨hremoved, fun node => by rw [lastNode, hremoved, if_neg hne]⟩

/-- Of the last node alone, with a length that wraps: a null pointer is followed. -/
theorem removeRange_stuck {pos len : UInt32} (s : Sound h l (xs ++ [a]) ts)
    (hpos : pos.toNat = xs.length) (hend : (pos + len).toNat < ts.length) (hlen : len ≠ 0) :
    l.removeRange h pos len = none := by
  have hin : ¬ pos ≥ l.size := by
    have hlength := s.linked.length_eq
    rw [List.length_append] at hlength
    rw [ge_size_iff s.counted, ← hlength]
    simp only [List.length_singleton]
    omega
  have hfind : l.findNode h pos = some a := findNode_spec s (by simp [hpos])
  have hprev : previousOf h a = some (xs.getLastD l.head) := s.linked.previous_of_mem
  have hnext : nextOf h a = some null := s.linked.chain.next_of_mem
  obtain ⟨hremoved, hlast⟩ := removed_inner s hend
  have htail : l.tail ≠ null := by
    rw [Ne, s.linked.tail_eq_null_iff]
    simp
  obtain ⟨n, hn⟩ : ∃ n, len.toNat = n + 1 :=
    Nat.exists_eq_add_one_of_ne_zero (fun he => hlen (eq_zero_iff_toNat.mpr he))
  have hnode := hlast a
  rw [hn, moveLoop_succ hnext, lastNode] at hnode
  rw [removed] at hnode
  simp only [removeRange, hin, if_false, hfind, hnode, htail.symm, hprev, nextOf_null,
    Option.bind_eq_bind, Option.bind_some, Option.bind_none, Option.pure_def]

/-- With no nodes to remove the first one is deleted. -/
theorem removeRange_none_wrong {pos : UInt32} (s : Sound h l ps ts) (hpos : pos.toNat < ts.length) :
    ¬ RemoveRangeRight h l ps ts pos 0 := by
  rintro ⟨σ, hrun, -, hlive, -⟩
  obtain ⟨xs, a, ys, rfl, hlength⟩ := s.split hpos
  obtain ⟨-, hlast⟩ := removed_inner s (show (pos + 0).toNat < ts.length by simpa using hpos)
  have s' : Sound h l (xs ++ a :: ([] ++ ys)) ts := s
  obtain ⟨h', hrun', k⟩ := removeRange_run s' hlength (hlast a)
  rw [hrun'] at hrun
  cases hrun
  have ha : a ∈ h.live := s.linked.node_live (by simp)
  have hdead := (k.live a).mp ((hlive a).mpr ⟨ha, by simp⟩)
  exact hdead.2 List.mem_cons_self

/-- The node behind two that were taken out is still linked back to the second. -/
theorem removeRange_keeps_link {c : Ptr} {zs : List Ptr}
    (s : Sound h l (xs ++ a :: b :: c :: zs) ts)
    (k : TakenOut h h' l.head xs a [b] (c :: zs)) (hcb : c ≠ b) (hcs : c ∉ [a, b]) :
    previousOf h' c = some b := by
  obtain ⟨h1, -, hprevious, -, -, hx⟩ := k.links
  have hold : previousOf h c = some b := by
    have hl : Linked h l.head l.tail ((xs ++ [a, b]) ++ c :: zs) ts := by
      simpa using s.linked
    rw [hl.previous_of_mem]
    simp
  rw [previousOf, Heap.field_congr (hx.frame c hcs List.not_mem_nil)]
  show previousOf h1 c = some b
  rw [hprevious, if_neg (List.cons_ne_nil _ _), List.getLastD_cons, List.getLastD_nil,
    update_of_ne hcb, hold]

/-- With any other length two nodes are deleted, and the one behind them is not linked back
over them. -/
theorem removeRange_two_wrong {pos len : UInt32} (s : Sound h l (xs ++ a :: b :: ys) ts)
    (hpos : pos.toNat = xs.length) (hend : (pos + len).toNat < ts.length) (hlen : len ≠ 0) :
    ¬ RemoveRangeRight h l (xs ++ a :: b :: ys) ts pos len := by
  rintro ⟨σ, hrun, ho, hlive, -⟩
  have hnext : nextOf h a = some b := s.linked.chain.next_of_mem
  obtain ⟨n, hn⟩ : ∃ n, len.toNat = n + 1 :=
    Nat.exists_eq_add_one_of_ne_zero (fun he => hlen (eq_zero_iff_toNat.mpr he))
  obtain ⟨hremoved, hlast⟩ := removed_inner s hend
  have hnode := hlast a
  rw [hn, moveLoop_succ hnext] at hnode
  have s' : Sound h l (xs ++ a :: ([b] ++ ys)) ts := s
  obtain ⟨h', hrun', k⟩ := removeRange_run s' hpos hnode
  rw [hrun'] at hrun
  cases hrun
  have hlength := s.linked.length_eq
  obtain ⟨⟨hab, hays⟩, hbys, -⟩ : (a ≠ b ∧ a ∉ ys) ∧ b ∉ ys ∧ ys.Nodup := by
    have hnd := (List.nodup_append.mp (List.nodup_cons.mp s.linked.chain.nodup).2).2.1
    simpa using hnd
  rw [hpos, hn, List.drop_left] at hlive
  cases n with
  | zero =>
      -- the second node is deleted with the first
      have hb : b ∈ h.live := s.linked.node_live (by simp)
      have hkept := (hlive b).mpr ⟨hb, by simpa using hab.symm⟩
      have hdead := ((k.live b).mp hkept).2
      simp at hdead
  | succ n =>
      cases ys with
      | nil =>
          -- both nodes were to go, but more are counted
          have hsize := ho.size
          have hcount := s.counted
          have hlt := len.toNat_lt
          have hlt' := l.size.toNat_lt
          rw [without, List.length_append, List.length_take, List.length_drop] at hsize
          simp only [hremoved, UInt32.toNat_sub, List.length_append, List.length_cons,
            List.length_nil] at hsize hlength
          rw [UInt32.toNat_add] at hend
          omega
      | cons c zs =>
          have hca : c ≠ a := fun he => hays (he ▸ List.mem_cons_self)
          have hcb : c ≠ b := fun he => hbys (he ▸ List.mem_cons_self)
          have hcs : c ∉ [a, b] := by simp [hca, hcb]
          cases n with
          | zero =>
              -- the third node keeps its link backwards
              rw [hpos, hn, without_append] at ho
              have hnew : previousOf h' c = some (xs.getLastD l.head) := ho.previous_of_mem
              rw [removeRange_keeps_link s k hcb hcs] at hnew
              have hnd := s.linked.chain.nodup
              rw [← List.cons_append] at hnd
              refine List.disjoint_of_nodup_append hnd List.getLastD_mem_cons ?_
              rw [← Option.some.inj hnew]
              simp
          | succ n =>
              -- the third node was to go
              have hc : c ∈ h.live := s.linked.node_live (by simp)
              refine ((hlive c).mp ((k.live c).mpr ⟨hc, hcs⟩)).2 ?_
              simp

/-- A range that begins in the list and does not reach its end. -/
theorem removeRange_inner_wrong {pos len : UInt32} (s : Sound h l ps ts)
    (hpos : pos.toNat < ts.length) (hend : (pos + len).toNat < ts.length) :
    ¬ RemoveRangeRight h l ps ts pos len := by
  by_cases hlen : len = 0
  · subst hlen
    exact removeRange_none_wrong s hpos
  · obtain ⟨xs, a, ys, rfl, hlength⟩ := s.split hpos
    cases ys with
    | nil =>
        rintro ⟨σ, hrun, -⟩
        rw [removeRange_stuck s hlength hend hlen] at hrun
        cases hrun
    | cons b ys => exact removeRange_two_wrong s hlength hend hlen

/-! ## When the range is removed -/

/-- Behind the end nothing is removed. -/
theorem removeRange_behind_right {pos : UInt32} (s : Sound h l ps ts)
    (hpos : ts.length ≤ pos.toNat) (len : UInt32) : RemoveRangeRight h l ps ts pos len := by
  have hin : pos ≥ l.size := (ge_size_iff s.counted pos).mpr hpos
  have hps : ps.length ≤ pos.toNat := by rwa [s.linked.length_eq]
  refine ⟨(h, l), ?_, ?_, ?_, fun _ => rfl⟩
  · rw [removeRange, if_pos hin]
    rfl
  · rw [without_to_end (Nat.le_add_right_of_le hps), without_to_end (Nat.le_add_right_of_le hpos),
      List.take_of_length_le hps, List.take_of_length_le hpos]
    exact s.linked.ordered s.counted
  · intro p
    rw [List.drop_eq_nil_of_le hps]
    simp

/-- Up to the end the range is removed. -/
theorem removeRange_end_right {pos len : UInt32} (s : Sound h l ps ts)
    (hpos : pos.toNat < ts.length) (hend : ts.length ≤ (pos + len).toNat) :
    RemoveRangeRight h l ps ts pos len := by
  obtain ⟨σ, hrun, s', hlive⟩ := removeRange_end s hpos hend
  have hsum : ts.length ≤ pos.toNat + len.toNat := by
    rw [UInt32.toNat_add] at hend
    exact Nat.le_trans hend (Nat.mod_le _ _)
  have hps : ps.length = ts.length := s.linked.length_eq
  refine ⟨σ, hrun, ?_, ?_, ?_⟩
  · rw [without_to_end hsum, without_to_end (hps ▸ hsum)]
    exact s'.linked.ordered s'.counted
  · intro p
    rw [hlive p, List.take_of_length_le]
    rw [List.length_drop]
    omega
  · rintro (hle | rfl)
    · omega
    · rw [UInt32.add_zero] at hend
      omega

/-- **Removal of a range of a list.** In a well linked list `removeAt` of a range does what it
is for exactly when the range begins behind the end, or reaches it without wrapping. -/
theorem removeRange_right_iff (s : Sound h l ps ts) (pos len : UInt32) :
    RemoveRangeRight h l ps ts pos len ↔
      ts.length ≤ pos.toNat ∨ ts.length ≤ (pos + len).toNat := by
  constructor
  · intro hright
    by_contra hcond
    rw [not_or, Nat.not_le, Nat.not_le] at hcond
    exact removeRange_inner_wrong s hcond.1 hcond.2 hright
  · intro hcond
    by_cases hpos : ts.length ≤ pos.toNat
    · exact removeRange_behind_right s hpos len
    · exact removeRange_end_right s (Nat.lt_of_not_le hpos) (hcond.resolve_left hpos)

/-- A range removed to the end of a list, and one in its middle. -/
theorem removeRange_right_iff_four :
    ∃ σ ps, (list Nat).run (list Nat).start [.append 1, .append 2, .append 3, .append 4] =
        some (σ, [.done, .done, .done, .done]) ∧
      Sound σ.1 σ.2 ps [1, 2, 3, 4] ∧ RemoveRangeRight σ.1 σ.2 ps [1, 2, 3, 4] 1 3 ∧
      ¬ RemoveRangeRight σ.1 σ.2 ps [1, 2, 3, 4] 1 2 := by
  obtain ⟨σ, ps, hrun, r⟩ := run_rep (T := Nat) [.append 1, .append 2, .append 3, .append 4]
  have s : Sound σ.1 σ.2 ps [1, 2, 3, 4] := r.sound
  refine ⟨σ, ps, hrun, s, (removeRange_right_iff s 1 3).mpr (by decide), ?_⟩
  rw [removeRange_right_iff s 1 2]
  decide

/-- Asked for one node in the middle, the code deletes two. -/
theorem removeRange_deletes_two :
    ∃ σ ps, (list Nat).run (list Nat).start [.append 1, .append 2, .append 3, .append 4] =
        some (σ, [.done, .done, .done, .done]) ∧
      Ordered σ.1 σ.2.head σ.2.tail σ.2.size ps [1, 2, 3, 4] ∧
      ¬ RemoveRangeRight σ.1 σ.2 ps [1, 2, 3, 4] 1 1 := by
  obtain ⟨σ, ps, hrun, r⟩ := run_rep (T := Nat) [.append 1, .append 2, .append 3, .append 4]
  have s : Sound σ.1 σ.2 ps [1, 2, 3, 4] := r.sound
  refine ⟨σ, ps, hrun, s.linked.ordered s.counted, ?_⟩
  obtain ⟨xs, a, ys, rfl, hlength⟩ := s.split (show (1 : UInt32).toNat < _ by decide)
  have hps := s.linked.length_eq
  rw [List.length_append, ← hlength] at hps
  cases ys with
  | nil => simp at hps
  | cons b ys => exact removeRange_two_wrong s hlength (by decide) (by decide)

end LearnSpace.DataStructure.MList
