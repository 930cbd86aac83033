import LearnSpace.DataStructure.QueuePool

/-!
# Assigning queues

Both operators lack the `return` at their end, so a call that does not assign a queue to
itself has no defined behaviour. Where a compiler lets that pass, the copy is right
exactly for a source with elements (for one without, it leaves `m_tail` at the head
node), and the move exactly for a source without (it cuts the chain it has just taken
over). So there is no pair of queues for which both are right.
-/

namespace LearnSpace.DataStructure.Queue

open Keel Function

variable {T : Type} {h h' : Heap (Node T)} {q s : Queue} {ps ds rs : List Ptr}
  {ts us : List T} {head des p : Ptr} {t : T} {build : Build}

/-! ## Queues that hold the same list -/

theorem Keeps.counted (k : Keeps h q ps ts) : q.size = count ts := by
  rcases k with r | ⟨-, rfl, s⟩
  · exact r.counted
  · rw [s.bare.size]
    rfl

theorem Keeps.size_eq_zero (k : Keeps h q ps ([] : List T)) : q.size = 0 :=
  k.counted

theorem Keeps.tail_eq_null (k : Keeps h q ps ([] : List T)) : q.tail = null := by
  rcases k with r | ⟨-, -, st⟩
  · rw [r.linked.tail_eq_null_iff, ← List.length_eq_zero_iff, r.linked.length_eq]
    rfl
  · exact st.bare.tail

section Answers

variable [Inhabited T]

/-- Two queues that hold one list give the same answers to every run without `clear`. -/
theorem answers_eq (cs : List (Call T)) :
    ∀ {h h' : Heap (Node T)} {q q' : Queue} {ps ps' : List Ptr} {ts : List T},
      Keeps h q ps ts → Keeps h' q' ps' ts → (∀ c ∈ cs, c ≠ .clear) →
      ((queue build T).run (h, q) cs).map Prod.snd =
        ((queue build T).run (h', q') cs).map Prod.snd := by
  induction cs with
  | nil =>
      intro h h' q q' ps ps' ts _ _ _
      rfl
  | cons c cs ih =>
      intro h h' q q' ps ps' ts k k' hcs
      obtain ⟨hc, hcs'⟩ := List.forall_mem_cons.mp hcs
      have hsize : q.size = q'.size := k.counted.trans k'.counted.symm
      have hreach : InReach q c ↔ InReach q' c := by
        cases c with
        | at' pos => rw [InReach, InReach, hsize]
        | _ => exact Iff.rfl
      by_cases hin : InReach q c
      · obtain ⟨σ, qs, hcall, hkeeps, -, -⟩ := safe_call_spec k ⟨hin, fun he => absurd he hc⟩
        obtain ⟨σ', qs', hcall', hkeeps', -, -⟩ :=
          safe_call_spec k' ⟨hreach.mp hin, fun he => absurd he hc⟩
        have hexec : (queue build T).exec (h, q) c =
            some (σ, ((wrapping build T).next ts c).2) := hcall
        have hexec' : (queue build T).exec (h', q') c =
            some (σ', ((wrapping build T).next ts c).2) := hcall'
        rw [Machine.run_cons cs hexec, Machine.run_cons cs hexec', Option.map_map,
          Option.map_map]
        have hrest := ih hkeeps hkeeps' hcs'
        have hcomp : ∀ r : Option (State T × List (Answer T)),
            r.map (Prod.snd ∘ fun r => (r.1, ((wrapping build T).next ts c).2 :: r.2)) =
              (r.map Prod.snd).map (((wrapping build T).next ts c).2 :: ·) := by
          intro r
          cases r <;> rfl
        rw [hcomp, hcomp, hrest]
      · have hnone : (queue build T).exec (h, q) c = none := call_out_of_reach hin
        have hnone' : (queue build T).exec (h', q') c = none :=
          call_out_of_reach (mt hreach.mpr hin)
        rw [Machine.run, Machine.run, hnone, hnone']

end Answers

/-! ## The copy -/

section Copy

variable [Inhabited T]

/-- One turn of the copy: a new node for `t` behind `des`. -/
theorem copyNode_spec {next : Ptr} {as : List Ptr} (hlive : ∀ p ∈ as, p ∈ h.live)
    (hdes : des ∈ as) (hp : p ∉ as) (hdata : dataOf h p = some t)
    (hnext : nextOf h p = some next) :
    ∃ h' n, copyNode h p des = some (h', next, n) ∧
      Inserted h h' as n (update (update (nextOf h) n (some null)) des (some n))
        (update (previousOf h) n (some des)) t := by
  obtain ⟨h1, e1, i1⟩ := newNode_inserted h as t
  obtain ⟨h2, e2, i2⟩ := i1.setNext hlive (.inr hdes) (newNode h).1
  obtain ⟨h3, e3, i3⟩ := i2.setPrevious hlive (.inl rfl) des
  have hpn : p ≠ (newNode h).1 := fun he => i3.fresh (he ▸ mem_live_of_nextOf hnext)
  have hpd : p ≠ des := fun he => hp (he ▸ hdes)
  have hdata' : dataOf (newNode h).2 p = some t := by
    have hnew : dataOf (newNode h).2 = update (dataOf h) (newNode h).1 (some default) :=
      Heap.field_alloc _
    rw [hnew, update_of_ne hpn, hdata]
  have hnext3 : nextOf h3 p = some next := by
    rw [i3.next, update_of_ne hpd, update_of_ne hpn, hnext]
  rw [update_idem] at i3
  refine ⟨h3, (newNode h).1, ?_, i3⟩
  simp only [copyNode, hdata', e1, e2, e3, hnext3, Option.bind_eq_bind, Option.bind_some,
    Option.pure_def]

/-- The nodes `ds` hold what was copied so far, up to `des`. -/
def Copied (h : Heap (Node T)) (head des : Ptr) (ds : List Ptr) (us : List T) : Prop :=
  (ds = [] ∧ us = [] ∧ des = head ∧ head ∈ h.live) ∨ (ds ≠ [] ∧ Linked h head des ds us)

namespace Copied

omit [Inhabited T] in
theorem live (c : Copied h head des ds us) : ∀ p ∈ head :: ds, p ∈ h.live := by
  rcases c with ⟨rfl, -, -, hhead⟩ | ⟨-, l⟩
  · intro p hp
    rwa [List.mem_singleton.mp hp]
  · exact fun p hp => l.node_live hp

omit [Inhabited T] in
theorem des_mem (c : Copied h head des ds us) : des ∈ head :: ds := by
  rcases c with ⟨-, -, rfl, -⟩ | ⟨hne, l⟩
  · exact List.mem_cons_self
  · rw [l.last]
    obtain ⟨xs, a, rfl⟩ := (List.eq_nil_or_concat' ds).resolve_left hne
    rw [List.getLastD_concat]
    simp

omit [Inhabited T] in
/-- A node more. -/
theorem step {n : Ptr} (c : Copied h head des ds us)
    (i : Inserted h h' (head :: ds) n (update (update (nextOf h) n (some null)) des (some n))
      (update (previousOf h) n (some des)) t) :
    Copied h' head n (ds ++ [n]) (us ++ [t]) := by
  have hn : n ∉ head :: ds := i.notMem c.live
  refine .inr ⟨by simp, ?_⟩
  rcases c with ⟨rfl, rfl, rfl, hhead⟩ | ⟨hne, l⟩
  · have hne : n ≠ des := fun he => hn (he ▸ List.mem_cons_self)
    refine .single (i.live ▸ Finset.mem_insert_self _ _) hne ?_ ?_ ?_ ?_
    · rw [i.next, update_self]
    · rw [i.next, update_of_ne hne, update_self]
    · rw [i.previous, update_self]
    · rw [i.data, update_self]
  · have hdes : des = ds.getLastD head := by
      rw [l.last]
      obtain ⟨xs, a, rfl⟩ := (List.eq_nil_or_concat' ds).resolve_left hne
      rw [List.getLastD_concat, List.getLastD_concat]
    rw [hdes] at i
    exact l.pushBack hn i.ne_null i.next i.previous i.data

end Copied

/-- A turn of the loop at a node of the source. -/
theorem copyLoop_turn {next : Ptr} (c : Copied h head des ds us) (hdata : dataOf h p = some t)
    (hnext : nextOf h p = some next) (hp : p ∉ head :: ds) (left : Nat) :
    ∃ h' n, copyLoop.run (h, p, des, left + 1) = copyLoop.run (h', next, n, left) ∧
      Copied h' head n (ds ++ [n]) (us ++ [t]) ∧
      h.Exchange h' (head :: ds) (head :: (ds ++ [n])) := by
  have hnull : p ≠ null := fun he => h.null_notMem_live (he ▸ mem_live_of_nextOf hnext)
  obtain ⟨h', n, hcopy, i⟩ := copyNode_spec c.live c.des_mem hp hdata hnext
  refine ⟨h', n, While.run_next ?_, c.step i, i.exchange _ ?_⟩
  · simp only [copyLoop, if_neg hnull, hcopy]
  · intro q
    simp only [List.mem_cons, List.mem_append]
    tauto

/-- The loop of the copy makes a node for each of the source, in order. -/
theorem copyLoop_spec {head : Ptr} :
    ∀ {rs : List Ptr} {p des : Ptr} {ds : List Ptr} {us vs : List T} {left : Nat}
      {h : Heap (Node T)},
      Copied h head des ds us → Seg (nextOf h) p rs null →
      (p :: rs).map (dataOf h) = vs.map some → (∀ r ∈ p :: rs, r ∉ head :: ds) →
      rs.length < left →
      ∃ h' des' ds', copyLoop.run (h, p, des, left) = .ok (h', des') ∧
        Copied h' head des' ds' (us ++ vs) ∧ h.Exchange h' (head :: ds) (head :: ds') := by
  intro rs
  induction rs with
  | nil =>
      intro p des ds us vs left h c hseg hdata hout hleft
      obtain ⟨t, vs, rfl, ht, hvs⟩ := List.map_eq_cons_iff.mp hdata.symm
      obtain rfl := List.map_eq_nil_iff.mp hvs
      obtain ⟨left, rfl⟩ : ∃ m, left = m + 1 := ⟨left - 1, by omega⟩
      obtain ⟨h', n, hrun, c', hx⟩ :=
        copyLoop_turn c ht.symm hseg (hout p List.mem_cons_self) left
      exact ⟨h', n, _, hrun.trans (While.run_leave rfl), c', hx⟩
  | cons r rs ih =>
      intro p des ds us vs left h c hseg hdata hout hleft
      obtain ⟨t, vs, rfl, ht, hvs⟩ := List.map_eq_cons_iff.mp hdata.symm
      obtain ⟨left, rfl⟩ : ∃ m, left = m + 1 := ⟨left - 1, by omega⟩
      obtain ⟨h', n, hrun, c', hx⟩ :=
        copyLoop_turn c ht.symm hseg.1 (hout p List.mem_cons_self) left
      -- the rest of the source has not been touched
      have hrest : ∀ x ∈ r :: rs, x ∉ head :: (ds ++ [n]) ∧ h'.cell x = h.cell x := by
        intro x hx'
        have hlive : x ∈ h.live := by
          have hmem : dataOf h x ∈ vs.map some := by
            rw [hvs]
            exact List.mem_map_of_mem hx'
          obtain ⟨u, -, hu⟩ := List.mem_map.mp hmem
          exact mem_live_of_dataOf hu.symm
        exact hx.other hlive (hout x (List.mem_cons_of_mem _ hx'))
      obtain ⟨h'', des', ds', hrun', c'', hx'⟩ := ih c'
        (hseg.2.congr (fun x hx' => Heap.field_congr (hrest x hx').2))
        ((List.map_congr_left (fun x hx' => Heap.field_congr (hrest x hx').2)).trans hvs.symm)
        (fun x hx' => (hrest x hx').1) (by simpa using hleft)
      refine ⟨h'', des', ds', hrun.trans hrun', ?_, hx.trans hx'⟩
      rwa [List.append_assoc] at c''

/-- A copy of a queue with elements holds them in nodes of its own. -/
theorem copyAssign_spec (off : OffEnd) (k : Keeps h q ps us) (r : Rep h s rs ts) (hts : ts ≠ [])
    (hdisjoint : List.Disjoint (q.head :: ps) (s.head :: rs)) :
    ∃ h' tail ds,
      copyAssign off h q s = off.result (h', { q with size := s.size, tail := tail }) ∧
      Rep h' { q with size := s.size, tail := tail } ds ts ∧ Rep h' s rs ts ∧
      List.Disjoint (q.head :: ds) (s.head :: rs) := by
  have hhead : q.head ∈ h.live := k.node_live List.mem_cons_self
  cases rs with
  | nil => exact absurd (List.length_eq_zero_iff.mp r.linked.length_eq.symm) hts
  | cons p rs =>
      have hseg := r.linked.chain.forward
      have hout : ∀ x ∈ s.head :: p :: rs, x ∉ [q.head] := by
        intro x hx hmem
        obtain rfl := List.mem_singleton.mp hmem
        exact hdisjoint List.mem_cons_self hx
      -- there are at least as many live nodes as the source has
      have hcount : rs.length < h.live.card := by
        have hsub : (p :: rs).toFinset ⊆ h.live := by
          intro x hx
          exact r.linked.node_live (List.mem_cons_of_mem _ (List.mem_toFinset.mp hx))
        have hle := Finset.card_le_card hsub
        rw [List.toFinset_card_of_nodup r.linked.chain.nodup_nodes, List.length_cons] at hle
        exact hle
      obtain ⟨h', des', ds', hrun, c, hx⟩ := copyLoop_spec
        (.inl ⟨rfl, rfl, rfl, hhead⟩) hseg.2 r.linked.content
        (fun x hx => hout x (List.mem_cons_of_mem _ hx)) hcount
      rw [List.nil_append] at c
      have hother : ∀ x ∈ s.head :: p :: rs, x ∉ q.head :: ds' ∧ h'.cell x = h.cell x :=
        fun x hx' => hx.other (r.linked.node_live hx') (hout x hx')
      refine ⟨h', des', ds', ?_, ⟨?_, r.counted⟩,
        r.frame (fun x hx' => (hother x hx').2), fun x hx' hx'' => (hother x hx'').1 hx'⟩
      · simp only [copyAssign, hseg.1, hrun, Except.toOption, Option.bind_eq_bind,
          Option.bind_some]
      · rcases c with ⟨-, hnil, -, -⟩ | ⟨-, l⟩
        · exact absurd hnil hts
        · exact l

omit [Inhabited T] in
/-- A queue without elements has a link to null or to a deleted node. -/
theorem Keeps.empty_link (k : Keeps h s rs ([] : List T)) :
    ∃ p, nextOf h s.head = some p ∧ h.Lost p := by
  rcases k with r | ⟨rfl, -, st⟩
  · obtain rfl := List.length_eq_zero_iff.mp r.linked.length_eq
    exact ⟨null, r.linked.chain.first, h.null_lt_brk, h.cell_null⟩
  · obtain ⟨node, hnode⟩ := Heap.mem_live.mp st.bare.head
    have hnext : nextOf h s.head = some node.next := by
      rw [nextOf, Heap.field, Heap.load, hnode, Option.map_some]
    exact ⟨_, hnext, st.lost _ hnext⟩

/-- A copy of a queue without elements follows a link that is left over, or leaves
`m_tail` at the head node. -/
theorem copyAssign_empty (off : OffEnd) (k : Keeps h s rs ([] : List T)) (q : Queue) :
    copyAssign off h q s = none ∨
      copyAssign off h q s = off.result (h, { q with size := 0, tail := q.head }) := by
  have hsize : s.size = 0 := k.size_eq_zero
  obtain ⟨p, hnext, hlost⟩ := k.empty_link
  by_cases hnull : p = null
  · right
    have hrun : copyLoop.run (h, p, q.head, h.live.card) = .ok (h, q.head) := by
      rw [hnull]
      exact While.run_leave rfl
    simp only [copyAssign, hnext, hrun, Except.toOption, hsize, Option.bind_eq_bind,
      Option.bind_some]
  · left
    have hnew : dataOf (newNode h).2 = update (dataOf h) (newNode h).1 (some default) :=
      Heap.field_alloc _
    have hne : p ≠ (newNode h).1 := Nat.ne_of_lt hlost.1
    have hdata : dataOf (newNode h).2 p = none := by
      rw [hnew, update_of_ne hne, dataOf, Heap.field, Heap.load, hlost.2,
        Option.map_none]
    have hrun : copyLoop.run (h, p, q.head, h.live.card) = .error () := by
      apply While.run_fault
      simp only [copyLoop, if_neg hnull, copyNode, hdata, Option.bind_eq_bind, Option.bind_none]
      cases h.live.card <;> rfl
    simp only [copyAssign, hnext, hrun, Except.toOption, Option.bind_eq_bind, Option.bind_some,
      Option.bind_none]

/-- With `m_tail` at the head node `pushFront` is undefined, or leaves it there. -/
theorem pushFront_tail_at_head (hhead : q.head ∈ h.live) (t : T) :
    pushFront build { q with size := 0, tail := q.head } h t = none ∨
      ∃ h', pushFront build { q with size := 0, tail := q.head } h t =
          some ((h', { q with size := 1, tail := q.head }), .done) ∧ q.head ∈ h'.live := by
  have hlive : ∀ p ∈ [q.head], p ∈ h.live := by simpa using hhead
  have hnull : q.head ≠ null := fun he => h.null_notMem_live (he ▸ hhead)
  have hgoes : ¬ build.Stops ((0 : UInt32) + 1 ≤ maxSize) := fun hstops =>
    hstops.2 (by decide)
  obtain ⟨node, hnode⟩ := Heap.mem_live.mp hhead
  have hfirst : nextOf h q.head = some node.next := by
    rw [nextOf, Heap.field, Heap.load, hnode, Option.map_some]
  obtain ⟨h1, e1, i1⟩ := newNode_inserted h [q.head] t
  have hne : q.head ≠ (newNode h).1 := fun he => i1.fresh (he ▸ hhead)
  have hnext1 : nextOf h1 q.head = some node.next := by
    rw [i1.next, update_of_ne hne, hfirst]
  obtain ⟨h2, e2, i2⟩ := i1.setNext hlive (.inl rfl) node.next
  obtain ⟨h3, e3, i3⟩ := i2.setNext hlive (.inr List.mem_cons_self) (newNode h).1
  have hnext3 : nextOf h3 (newNode h).1 = some node.next := by
    rw [i3.next, update_of_ne hne.symm, update_self]
  -- the node the old link leads to, if there is one
  cases e4 : setPrevious h3 node.next (newNode h).1 with
  | none =>
      left
      simp only [pushFront, hgoes, if_false, e1, hnull, hnext1, e2, e3,
        hnext3, e4, Option.bind_eq_bind, Option.bind_some, Option.bind_none]
  | some h4 =>
      right
      have hlive4 : h4.live = insert (newNode h).1 h.live :=
        (Heap.live_modify e4).trans i3.live
      obtain ⟨h5, e5, s5⟩ := setPrevious_spec
        (hlive4 ▸ Finset.mem_insert_self (newNode h).1 h.live) q.head
      refine ⟨h5, ?_, ?_⟩
      · simp only [pushFront, hgoes, if_false, e1, hnull, hnext1, e2, e3,
          hnext3, e4, e5, Option.bind_eq_bind, Option.bind_some, Option.pure_def]
        rfl
      · rw [s5.live, hlive4]
        exact Finset.mem_insert_of_mem hhead

/-- With `m_tail` at the head node the first element is lost at the second push. -/
theorem run_tail_at_head (hhead : q.head ∈ h.live) (t : T) :
    (queue build T).run (h, { q with size := 0, tail := q.head })
      [.pushFront t, .pushBack t, .at' 1] = none := by
  rcases pushFront_tail_at_head hhead t with hnone | ⟨h1, hpush, hhead1⟩
  · have hexec : (queue build T).exec (h, { q with size := 0, tail := q.head }) (.pushFront t) =
        none := hnone
    rw [Machine.run, hexec]
    rfl
  · have hexec : (queue build T).exec (h, { q with size := 0, tail := q.head }) (.pushFront t) =
        some ((h1, { q with size := 1, tail := q.head }), .done) := hpush
    have hnull : q.head ≠ null := fun he => h1.null_notMem_live (he ▸ hhead1)
    let q1 : Queue := { q with size := 1, tail := q.head }
    have hback : back q1.head q1.tail = q.head := if_neg hnull
    have hlive1 : ∀ p ∈ [q1.head], p ∈ h1.live := by simpa using hhead1
    have hroom : (1 : UInt32) + 1 ≤ maxSize := by decide
    have hgoes : ¬ build.Stops (q1.size + 1 ≤ maxSize) := fun hstops => hstops.2 hroom
    obtain ⟨h2, n, hpush2, i⟩ := pushBack_inserted hgoes hlive1
      (by rw [hback]; exact List.mem_cons_self) t
    rw [hback] at i
    have hexec2 : (queue build T).exec (h1, { q with size := 1, tail := q.head }) (.pushBack t) =
        some ((h2, { q with size := 2, tail := n }), .done) := hpush2
    have hne : n ≠ q.head := fun he => i.fresh (he ▸ hhead1)
    have hfirst : nextOf h2 q.head = some n := by rw [i.next, update_self]
    have hsecond : nextOf h2 n = some null := by
      rw [i.next, update_of_ne hne, update_self]
    have hwalk : (walkLoop h2).run (n, 1) = .ok null := by
      rw [While.run_next (t := (null, 0))]
      · exact While.run_leave rfl
      · simp only [walkLoop, hsecond]
        rfl
    have hat : (queue build T).exec (h2, { q with size := 2, tail := n }) (.at' 1) = none := by
      show at' { q with size := 2, tail := n } h2 1 = none
      have hguard : ¬ (1 : Int32).toUInt32 ≥ 2 := by decide
      have hdata : dataOf h2 null = none := by
        rw [dataOf, Heap.field, Heap.load_null, Option.map_none]
      have hpos : (1 : Int32).toInt = 1 := rfl
      simp only [at', hguard, if_false, hfirst, hpos, hwalk, Except.toOption, hdata,
        Option.bind_eq_bind, Option.bind_some, Option.bind_none]
    rw [Machine.run_cons _ hexec, Machine.run_cons _ hexec2, Machine.run, hat]
    rfl

end Copy

/-! ## The move -/

section Move

/-- A move gives the destination the source's tail and size, and no nodes. -/
theorem moveAssign_spec (off : OffEnd) (hhead : q.head ∈ h.live) (hs : s.head ∈ h.live) :
    ∃ h', moveAssign off h q s =
        off.result (h', { q with tail := s.tail, size := s.size }, { s with size := 0 }) ∧
      nextOf h' q.head = some null ∧ h.Exchange h' [q.head] [q.head] := by
  obtain ⟨node, hnode⟩ := Heap.mem_live.mp hs
  have hnext : nextOf h s.head = some node.next := by
    rw [nextOf, Heap.field, Heap.load, hnode, Option.map_some]
  obtain ⟨h1, e1, s1⟩ := setNext_spec hhead node.next
  obtain ⟨h2, e2, s2⟩ := setNext_spec (s1.live ▸ hhead) null
  refine ⟨h2, ?_, ?_, ?_⟩
  · simp only [moveAssign, hnext, e1, e2, Option.bind_eq_bind, Option.bind_some]
  · rw [s2.next, update_self]
  · exact (s1.exchange _ List.mem_cons_self).trans (s2.exchange _ List.mem_cons_self)

variable [Inhabited T]

/-- A queue with a size but no nodes has no first element to give. -/
theorem run_no_nodes (hnext : nextOf h q.head = some null) (hsize : q.size ≠ 0) :
    (queue build T).run (h, q) [.at' 0] = none := by
  have hguard : ¬ (0 : Int32).toUInt32 ≥ q.size := by
    show ¬ q.size ≤ 0
    rw [UInt32.le_iff_toNat_le]
    intro hle
    exact hsize (eq_zero_iff_toNat.mpr (Nat.le_zero.mp hle))
  have hwalk : (walkLoop h).run (null, 0) = .ok null := While.run_leave rfl
  have hdata : dataOf h null = none := by
    rw [dataOf, Heap.field, Heap.load_null, Option.map_none]
  have hpos : (0 : Int32).toInt = 0 := rfl
  have hat : (queue build T).exec (h, q) (.at' 0) = none := by
    show at' q h 0 = none
    simp only [at', hguard, if_false, hnext, hpos, hwalk, Except.toOption, hdata,
      Option.bind_eq_bind, Option.bind_some, Option.bind_none]
  rw [Machine.run, hat]
  rfl

/-- Nor has it one after a push, which goes behind `m_tail`: of a size that has wrapped to 0
a push makes 1. -/
theorem run_no_nodes_pushed (hhead : q.head ∈ h.live) (hnext : nextOf h q.head = some null)
    (htail : q.tail ∈ h.live) (hne : q.tail ≠ q.head) (hsize : q.size = 0) (t : T) :
    (queue build T).run (h, q) [.pushBack t, .at' 0] = none := by
  have hlive : ∀ p ∈ [q.head, q.tail], p ∈ h.live := by simp [hhead, htail]
  have hnull : q.tail ≠ null := fun he => h.null_notMem_live (he ▸ htail)
  have hback : back q.head q.tail = q.tail := if_neg hnull
  have hgoes : ¬ build.Stops (q.size + 1 ≤ maxSize) := fun hstops => by
    rw [hsize] at hstops
    exact hstops.2 (by decide)
  obtain ⟨h', n, hpush, i⟩ := pushBack_inserted hgoes hlive (by simp [hback]) t
  rw [hback] at i
  have hexec : (queue build T).exec (h, q) (.pushBack t) =
      some ((h', { q with tail := n, size := q.size + 1 }), .done) := hpush
  have hnew : q.head ≠ n := fun he => i.fresh (he ▸ hhead)
  have hnext' : nextOf h' q.head = some null := by
    rw [i.next, update_of_ne hne.symm, update_of_ne hnew, hnext]
  have hone : q.size + 1 ≠ 0 := by
    rw [hsize]
    decide
  have hat : (queue build T).run (h', { q with tail := n, size := q.size + 1 }) [.at' 0] = none :=
    run_no_nodes hnext' hone
  rw [Machine.run_cons _ hexec, hat]
  rfl

end Move

/-! ## What the operators should do -/

namespace Pool

variable {ι : Type} [DecidableEq ι] [Inhabited T]

/-- The answers of the queue `x` to a run of calls, if it is defined. -/
def answers (build : Build) (σ : Pool ι T) (x : ι) (cs : List (Call T)) :
    Option (List (Answer T)) :=
  (σ.queue x).bind (fun q => ((Queue.queue build T).run (σ.heap, q) cs).map Prod.snd)

/-- The calls by which queues are compared. -/
def Listed : Call T → Prop
  | .head | .tail | .isEmpty | .clear => False
  | _ => True

/-- No node is on the chains of both queues. -/
def SharesNoNode (σ : Pool ι T) (x y : ι) : Prop :=
  ∀ q s qs rs, σ.queue x = some q → σ.queue y = some s →
    Seg (nextOf σ.heap) q.head qs null → Seg (nextOf σ.heap) s.head rs null →
    List.Disjoint (q.head :: qs) (s.head :: rs)

/-- `x = y` is a copy: from then on `x` answers as `y` does, `y` as before, and the two
share no node. -/
def CopyHolds (build : Build) (off : OffEnd) (σ : Pool ι T) (x y : ι) : Prop :=
  ∃ σ', σ.copyAssign off x y = some σ' ∧
    (∀ cs, (∀ c ∈ cs, Listed c) → σ'.answers build x cs = σ.answers build y cs) ∧
    (∀ cs, (∀ c ∈ cs, Listed c) → σ'.answers build y cs = σ.answers build y cs) ∧
    σ'.SharesNoNode x y

/-- `x = std::move(y)` is a move: from then on `x` answers as `y` would have, and `y` as a
queue that was just constructed. -/
def MoveHolds (build : Build) (off : OffEnd) (σ : Pool ι T) (x y : ι) : Prop :=
  ∃ σ', σ.moveAssign off x y = some σ' ∧
    (∀ cs, (∀ c ∈ cs, Listed c) → σ'.answers build x cs = σ.answers build y cs) ∧
    (∀ cs, (∀ c ∈ cs, Listed c) →
      σ'.answers build y cs =
        ((Queue.queue build T).run (Queue.queue build T).start cs).map Prod.snd)

omit [Inhabited T] in
theorem Listed.ne_clear {c : Call T} (hc : Listed c) : c ≠ .clear := by
  rintro rfl
  exact hc

omit [DecidableEq ι] in
/-- The answers of a queue that is there. -/
theorem answers_of_run {σ : Pool ι T} {x : ι} (hq : σ.queue x = some q) (cs : List (Call T)) :
    σ.answers build x cs = ((Queue.queue build T).run (σ.heap, q) cs).map Prod.snd := by
  rw [answers, hq, Option.bind_some]

omit [DecidableEq ι] in
/-- Calls that every queue can answer are answered as by the deque. -/
theorem answers_eq_deque {σ : Pool ι T} {x : ι} (hq : σ.queue x = some q)
    (k : Keeps σ.heap q ps ts) {cs : List (Call T)} (hcs : ∀ c ∈ cs, ∀ σ, Safe σ c) :
    σ.answers build x cs = some ((wrapping build T).run ts cs).2 := by
  obtain ⟨σ', hrun, -⟩ := refines_keeps.run_from cs (σ.heap, q) ts ⟨ps, k⟩
    ((Queue.queue build T).obeys_of_forall hcs _)
  rw [answers_of_run hq, hrun]
  rfl

omit [DecidableEq ι] in
/-- A queue with `m_tail` at the head node is not like one without elements. -/
theorem answers_ne_of_tail_at_head {σ σ' : Pool ι T} {x y : ι} (hhead : q.head ∈ σ'.heap.live)
    (hx : σ'.queue x = some { q with size := 0, tail := q.head }) (hs : σ.queue y = some s)
    (k : Keeps σ.heap s ps []) :
    ∃ cs, (∀ c ∈ cs, Listed c) ∧ σ'.answers build x cs ≠ σ.answers build y cs := by
  refine ⟨[.pushFront default, .pushBack default, .at' 1], ?_, ?_⟩
  · intro c hc
    simp only [List.mem_cons, List.not_mem_nil, or_false] at hc
    rcases hc with rfl | rfl | rfl <;> trivial
  · rw [answers_of_run hx, run_tail_at_head hhead, answers_eq_deque hs k]
    · nofun
    · intro c hc σ
      simp only [List.mem_cons, List.not_mem_nil, or_false] at hc
      rcases hc with rfl | rfl | rfl
      · exact ⟨trivial, nofun⟩
      · exact ⟨trivial, nofun⟩
      · exact ⟨.inl (by decide), nofun⟩

omit [DecidableEq ι] in
/-- A queue that has a tail but no nodes is not like one with elements. -/
theorem answers_ne_of_no_nodes {σ σ' : Pool ι T} {x y : ι} (hx : σ'.queue x = some q)
    (hhead : q.head ∈ σ'.heap.live) (hnext : nextOf σ'.heap q.head = some null)
    (htail : q.tail ∈ σ'.heap.live) (hne : q.tail ≠ q.head) (hs : σ.queue y = some s)
    (k : Keeps σ.heap s ps ts) :
    ∃ cs, (∀ c ∈ cs, Listed c) ∧ σ'.answers build x cs ≠ σ.answers build y cs := by
  by_cases hsize : q.size = 0
  · refine ⟨[.pushBack default, .at' 0], ?_, ?_⟩
    · intro c hc
      simp only [List.mem_cons, List.not_mem_nil, or_false] at hc
      rcases hc with rfl | rfl <;> trivial
    · rw [answers_of_run hx, run_no_nodes_pushed hhead hnext htail hne hsize,
        answers_eq_deque hs k]
      · nofun
      · intro c hc σ
        simp only [List.mem_cons, List.not_mem_nil, or_false] at hc
        rcases hc with rfl | rfl
        · exact ⟨trivial, nofun⟩
        · exact ⟨.inl (by decide), nofun⟩
  · refine ⟨[.at' 0], ?_, ?_⟩
    · intro c hc
      obtain rfl := List.mem_singleton.mp hc
      trivial
    · rw [answers_of_run hx, run_no_nodes hnext hsize, answers_eq_deque hs k]
      · nofun
      · intro c hc σ
        obtain rfl := List.mem_singleton.mp hc
        exact ⟨.inl (by decide), nofun⟩

omit [DecidableEq ι] in
/-- Queues that hold one list are alike. -/
theorem answers_eq_of_keeps {σ σ' : Pool ι T} {x y : ι} {q' : Queue} {ps' : List Ptr}
    (hx : σ'.queue x = some q') (k' : Keeps σ'.heap q' ps' ts) (hy : σ.queue y = some q)
    (k : Keeps σ.heap q ps ts) {cs : List (Call T)} (hcs : ∀ c ∈ cs, Listed c) :
    σ'.answers build x cs = σ.answers build y cs := by
  rw [answers_of_run hx, answers_of_run hy]
  exact answers_eq cs k' k (fun c hc => (hcs c hc).ne_clear)

variable {σ : Pool ι T} {qs : ι → List Ptr} {us : ι → List T} {x y : ι}

/-- A copy of a queue with elements has them in nodes of its own. -/
theorem copyHolds_of_elements (a : Apart σ qs us) (hxy : x ≠ y) (hq : σ.queue x = some q)
    (hs : σ.queue y = some s) (hne : us y ≠ []) : CopyHolds build .passes σ x y := by
  have k' := a.keeps y s hs
  have r : Rep σ.heap s (qs y) (us y) := k'.resolve_right (fun h => hne h.2.1)
  obtain ⟨h', tail, ds, hcopy, rq, rs, hdisjoint⟩ :=
    copyAssign_spec .passes (a.keeps x q hq) r hne (a.disjoint x y q s hxy hq hs)
  let q' : Queue := { q with size := s.size, tail := tail }
  let σ' : Pool ι T := { heap := h', queue := update σ.queue x (some q') }
  have hassign : σ.copyAssign .passes x y = some σ' := by
    simp only [copyAssign, if_neg hxy, hq, hs, hcopy, OffEnd.result, Option.bind_eq_bind,
      Option.bind_some, Option.pure_def]
    rfl
  have hx : σ'.queue x = some q' := update_self ..
  have hy : σ'.queue y = some s := (update_of_ne hxy.symm ..).trans hs
  refine ⟨σ', hassign, ?_, ?_, ?_⟩
  · intro cs hcs
    exact answers_eq_of_keeps hx (.inl rq) hs k' hcs
  · intro cs hcs
    exact answers_eq_of_keeps hy (.inl rs) hs k' hcs
  · intro q₁ s₁ ds' rs' hq₁ hs₁ hsegq hsegs
    cases hx.symm.trans hq₁
    cases hy.symm.trans hs₁
    rw [Seg.unique (nextOf_null h') hsegq rq.linked.chain.forward,
      Seg.unique (nextOf_null h') hsegs rs.linked.chain.forward]
    exact hdisjoint

/-- A copy of a queue without elements is undefined or has `m_tail` at the head node. -/
theorem not_copyHolds_of_empty (off : OffEnd) (a : Apart σ qs us) (hxy : x ≠ y)
    (hq : σ.queue x = some q) (hs : σ.queue y = some s) (hempty : us y = []) :
    ¬ CopyHolds build off σ x y := by
  rintro ⟨σ', hcopy, hanswers, -, -⟩
  have k' := a.keeps y s hs
  rw [hempty] at k'
  simp only [copyAssign, if_neg hxy, hq, hs, Option.bind_eq_bind, Option.bind_some] at hcopy
  rcases copyAssign_empty off k' q with hnone | hsome
  · rw [hnone] at hcopy
    cases hcopy
  · rw [hsome] at hcopy
    cases off with
    | undefined => cases hcopy
    | passes =>
        cases hcopy
        let q' : Queue := { q with size := 0, tail := q.head }
        let σ' : Pool ι T := { heap := σ.heap, queue := update σ.queue x (some q') }
        have hx : σ'.queue x = some q' := update_self ..
        have hhead : q.head ∈ σ'.heap.live := (a.keeps x q hq).node_live List.mem_cons_self
        obtain ⟨cs, hcs, hne⟩ := answers_ne_of_tail_at_head hhead hx hs k'
        exact absurd (hanswers cs hcs) hne

/-- Where control must not leave a function at its end, no copy is defined. -/
theorem copyAssign_undefined (hxy : x ≠ y) :
    σ.copyAssign .undefined x y = none := by
  rw [copyAssign, if_neg hxy]
  cases σ.queue x with
  | none => rfl
  | some q =>
      cases σ.queue y with
      | none => rfl
      | some s =>
          have hnone : Queue.copyAssign .undefined σ.heap q s = none := by
            simp only [Queue.copyAssign, OffEnd.result, Option.bind_eq_bind,
              Option.bind_fun_none]
          simp only [hnone, Option.bind_eq_bind, Option.bind_some, Option.bind_none]

/-- **Copying a queue** is right exactly when the missing `return` is let pass and the
source has elements. -/
theorem copyHolds_iff (off : OffEnd) (a : Apart σ qs us) (hxy : x ≠ y)
    (hq : σ.queue x = some q) (hs : σ.queue y = some s) :
    CopyHolds build off σ x y ↔ off = .passes ∧ us y ≠ [] := by
  constructor
  · intro hcopy
    refine ⟨?_, fun hempty => not_copyHolds_of_empty off a hxy hq hs hempty hcopy⟩
    cases off with
    | undefined =>
        obtain ⟨σ', hσ', -⟩ := hcopy
        rw [copyAssign_undefined hxy] at hσ'
        cases hσ'
    | passes => rfl
  · rintro ⟨rfl, hne⟩
    exact copyHolds_of_elements a hxy hq hs hne

omit [Inhabited T] in
/-- What the move leaves: both queues without nodes, the target with the size and the tail
of the source. -/
theorem moveAssign_pool (off : OffEnd) (a : Apart σ qs us) (hxy : x ≠ y)
    (hq : σ.queue x = some q) (hs : σ.queue y = some s) :
    ∃ h', σ.moveAssign off x y = off.result
        { heap := h',
          queue := update (update σ.queue y (some { s with size := 0 })) x
            (some { q with tail := s.tail, size := s.size }) } ∧
      nextOf h' q.head = some null ∧ σ.heap.Exchange h' [q.head] [q.head] := by
  obtain ⟨h', hmove, hnext, hx⟩ := moveAssign_spec off
    ((a.keeps x q hq).node_live List.mem_cons_self)
    ((a.keeps y s hs).node_live List.mem_cons_self)
  refine ⟨h', ?_, hnext, hx⟩
  simp only [moveAssign, if_neg hxy, hq, hs, hmove, Option.bind_eq_bind, Option.bind_some]
  cases off <;> rfl

/-- From a queue without elements there is nothing to move. -/
theorem moveHolds_of_empty (a : Apart σ qs us) (hxy : x ≠ y) (hq : σ.queue x = some q)
    (hs : σ.queue y = some s) (hempty : us y = []) : MoveHolds build .passes σ x y := by
  have k := a.keeps x q hq
  have k' := a.keeps y s hs
  rw [hempty] at k'
  obtain ⟨h', hassign, hnext, hx⟩ := moveAssign_pool .passes a hxy hq hs
  let q' : Queue := { q with tail := s.tail, size := s.size }
  let s' : Queue := { s with size := 0 }
  let σ' : Pool ι T := ⟨h', update (update σ.queue y (some s')) x (some q')⟩
  have hqx : σ'.queue x = some q' := update_self ..
  have hqy : σ'.queue y = some s' := (update_of_ne hxy.symm ..).trans (update_self ..)
  have hs' : s' = s := by
    show { s with size := 0 } = s
    rw [← k'.size_eq_zero]
  have hlive : ∀ p ∈ [q.head], p ∈ σ.heap.live := by
    intro p hp
    rw [List.mem_singleton.mp hp]
    exact k.node_live List.mem_cons_self
  have hother : ∀ p ∈ s.head :: qs y, h'.cell p = σ.heap.cell p := by
    intro p hp
    refine (hx.other (k'.node_live hp) (fun hmem => ?_)).2
    rw [List.mem_singleton.mp hmem] at hp
    exact a.disjoint x y q s hxy hq hs List.mem_cons_self hp
  have kq : Keeps h' q' [] ([] : List T) :=
    .inl (rep_empty hnext k'.tail_eq_null k'.size_eq_zero)
  have ks : Keeps h' s' (qs y) ([] : List T) :=
    hs' ▸ k'.frame hother (fun p => hx.lost hlive)
  refine ⟨σ', hassign, ?_, ?_⟩
  · intro cs hcs
    exact answers_eq_of_keeps hqx kq hs k' hcs
  · intro cs hcs
    rw [answers_of_run hqy]
    exact answers_eq cs ks (.inl (construct_rep .empty)) (fun c hc => (hcs c hc).ne_clear)

/-- Elements are counted after the move, but no node is linked. -/
theorem not_moveHolds_of_elements (off : OffEnd) (a : Apart σ qs us) (hxy : x ≠ y)
    (hq : σ.queue x = some q) (hs : σ.queue y = some s) (hne : us y ≠ []) :
    ¬ MoveHolds build off σ x y := by
  rintro ⟨τ, hτ, hanswers, -⟩
  obtain ⟨h', hassign, hnext, hx⟩ := moveAssign_pool off a hxy hq hs
  rw [hassign] at hτ
  cases off with
  | undefined => cases hτ
  | passes =>
      cases hτ
      have k' := a.keeps y s hs
      have r : Rep σ.heap s (qs y) (us y) := k'.resolve_right (fun h => hne h.2.1)
      -- the last node of the source is not touched
      obtain ⟨-, xs, p, hps⟩ := r.ends hne
      have htail : s.tail ∈ s.head :: qs y := by
        rw [r.linked.last, hps, List.getLastD_concat]
        simp
      have hout : s.tail ≠ q.head := fun he =>
        a.disjoint x y q s hxy hq hs List.mem_cons_self (he ▸ htail)
      have hcell : h'.cell s.tail = σ.heap.cell s.tail :=
        (hx.other (k'.node_live htail) (by simpa using hout)).2
      have hlive : s.tail ∈ h'.live := by
        obtain ⟨y, hy⟩ := Heap.mem_live.mp (k'.node_live htail)
        exact Heap.mem_live.mpr ⟨y, hcell.trans hy⟩
      let q' : Queue := { q with tail := s.tail, size := s.size }
      let σ' : Pool ι T :=
        ⟨h', update (update σ.queue y (some { s with size := 0 })) x (some q')⟩
      have hqx : σ'.queue x = some q' := update_self ..
      obtain ⟨cs, hcs, hdiffer⟩ := answers_ne_of_no_nodes hqx (mem_live_of_nextOf hnext) hnext
        hlive hout hs k'
      exact hdiffer (hanswers cs hcs)

/-- **Moving a queue** is right exactly when the missing `return` is let pass and the
source has no elements. -/
theorem moveHolds_iff (off : OffEnd) (a : Apart σ qs us) (hxy : x ≠ y)
    (hq : σ.queue x = some q) (hs : σ.queue y = some s) :
    MoveHolds build off σ x y ↔ off = .passes ∧ us y = [] := by
  constructor
  · intro hmove
    refine ⟨?_, ?_⟩
    · cases off with
      | undefined =>
          obtain ⟨h', hassign, -, -⟩ := moveAssign_pool .undefined a hxy hq hs
          obtain ⟨τ, hτ, -⟩ := hmove
          rw [hassign] at hτ
          cases hτ
      | passes => rfl
    · by_contra hne
      exact not_moveHolds_of_elements off a hxy hq hs hne hmove
  · rintro ⟨rfl, hempty⟩
    exact moveHolds_of_empty a hxy hq hs hempty

/-- **Assigning queues.** No two queues a client can have are such that the copy and the
move are both right, even where the missing `return` is let pass. -/
theorem assign_never (build : Build) (off : OffEnd) (hσ : (pools build ι T).Reachable σ)
    (hxy : x ≠ y)
    (hq : σ.queue x = some q) (hs : σ.queue y = some s) :
    ¬ (CopyHolds build off σ x y ∧ MoveHolds build off σ x y) := by
  obtain ⟨ps, ts, a⟩ := apart_invariant build σ hσ
  rintro ⟨hcopy, hmove⟩
  exact ((copyHolds_iff off a hxy hq hs).mp hcopy).2
    ((moveHolds_iff off a hxy hq hs).mp hmove).2

/-- Two queues that were just constructed. -/
def pair : Pool Bool Nat := (Pool.initial.construct true).construct false

/-- The two with elements, of which one came in at the front. -/
def filled : Option (Pool Bool Nat) := do
  let σ ← pair.use .debug (.call true (.pushBack 1))
  let σ ← σ.use .debug (.call false (.pushBack 2))
  σ.use .debug (.call false (.pushFront 3))

theorem filled_reachable {σ : Pool Bool Nat} (hfilled : filled = some σ) :
    (pools .debug Bool Nat).Reachable σ := by
  simp only [filled, Option.bind_eq_bind, Option.bind_eq_some_iff] at hfilled
  obtain ⟨σ1, h1, σ2, h2, h3⟩ := hfilled
  have hpair : (pools .debug Bool Nat).Reachable pair :=
    reachable_construct (reachable_construct (.init rfl) rfl) rfl
  exact .step (.step (.step hpair h1) h2) h3

theorem assign_never_pair :
    ∃ σ, filled = some σ ∧
      ¬ (CopyHolds .debug .passes σ true false ∧ MoveHolds .debug .passes σ true false) :=
  ⟨_, rfl, assign_never .debug .passes (filled_reachable rfl) (by decide) rfl rfl⟩

/-- A copy of a queue that was just constructed: undefined at its end, and where that is
let pass `pushFront` goes through a null pointer. -/
theorem copy_of_constructed :
    pair.copyAssign .undefined true false = none ∧
      ∃ σ, pair.copyAssign .passes true false = some σ ∧
        σ.answers .debug true [.pushFront 7] = none ∧
        pair.answers .debug false [.pushFront 7] = some [.done] :=
  ⟨rfl, _, rfl, rfl, rfl⟩

end Pool

end LearnSpace.DataStructure.Queue
