import LearnSpace.Keel.Walk
import LearnSpace.DataStructure.MListSequence

/-!
# `removeOne` of the list

`removeOne` walks from a position to the end and takes the nodes of an element out of the
chain, one or all of them. It looks at no other field than `m_size`: `m_tail` stays what it
was. So the walk forwards and the size come out right in every case, and the list is in
order exactly when the last node was not among those taken out (`removeOne_right_iff`).
-/

namespace LearnSpace.DataStructure.MList

open Keel Function

variable {T : Type}

/-- One turn of the loop of `removeOne`. -/
def removeTurn [BEq T] (t : T) (onlyOne : Bool) (s : State T × Ptr) :
    Option ((State T × Ptr) ⊕ State T) := do
  let ((h, l), startFindNode) := s
  if startFindNode = null then
    return .inr (h, l)
  let nextNode ← nextOf h startFindNode
  let data ← dataOf h startFindNode
  if data == t then
    let previous ← previousOf h startFindNode
    let next ← nextOf h startFindNode
    let h ← setNext h previous next
    let next ← nextOf h startFindNode
    let h ← (if next ≠ null then do
        let previous ← previousOf h startFindNode
        setPrevious h next previous
      else
        return h)
    let h ← h.free startFindNode
    let l := { l with size := l.size - 1 }
    if onlyOne then
      return .inr (h, l)
    return .inl ((h, l), nextNode)
  return .inl ((h, l), nextNode)

/-- `removeOne`, with fuel for its loop. `t` comes as a `const T&`; it is taken for a value,
which is not stored in the list itself. -/
def removeOne [BEq T] (l : MList) (h : Heap (Node T)) (t : T) (pos : UInt32) (onlyOne : Bool)
    (fuel : Nat) : Option (State T × Answer T) := do
  if pos ≥ l.size then
    return ((h, l), .done)
  let startFindNode ← l.findNode h pos
  let σ ← Fuel.loop (removeTurn t onlyOne) fuel ((h, l), startFindNode)
  return (σ, .done)

/-! ## What it is for -/

/-- A list any further call of which touches live nodes only. -/
def Usable [Inhabited T] (σ : State T) : Prop :=
  (∀ t, (σ.2.append σ.1 t).isSome) ∧ (∀ pos, (σ.2.at' σ.1 pos).isSome) ∧
    ∀ pos, (σ.2.removeAt σ.1 pos).isSome

/-- What `removeOne` is for, in a list that holds `ts`: it ends, the element is gone once or
everywhere from the position on, the two chains, the tail and the size agree, and the list
can be used. -/
def RemoveOneRight [Inhabited T] [BEq T] (h : Heap (Node T)) (l : MList) (ts : List T) (t : T)
    (pos : UInt32) (onlyOne : Bool) : Prop :=
  ∃ fuel σ qs, l.removeOne h t pos onlyOne fuel = some (σ, .done) ∧
    Ordered σ.1 σ.2.head σ.2.tail σ.2.size qs
      (ts.take pos.toNat ++ minus t onlyOne (ts.drop pos.toNat)) ∧
    Usable σ

/-- Whether the last element of a sequence is among those taken out. -/
def removesLast [BEq T] (t : T) (onlyOne : Bool) (ts : List T) : Bool :=
  ts.getLast?.any (· == t) && (!onlyOne || ts.dropLast.all (fun u => !(u == t)))

section Sequences

variable [BEq T] {t v : T} {onlyOne : Bool} {vs : List T}

theorem removesLast_nil : removesLast t onlyOne ([] : List T) = false := rfl

theorem removesLast_singleton : removesLast t onlyOne [v] = (v == t) := by
  simp [removesLast]

/-- In front of others an element decides only as the one that is taken out. -/
theorem removesLast_cons (hvs : vs ≠ []) :
    removesLast t onlyOne (v :: vs) = (removesLast t onlyOne vs && !(onlyOne && (v == t))) := by
  cases vs with
  | nil => exact absurd rfl hvs
  | cons w ws =>
      rw [removesLast, removesLast, List.getLast?_cons_cons, List.dropLast_cons_cons, List.all_cons]
      cases onlyOne <;> cases (v == t) <;> simp

end Sequences

/-! ## The nodes that are left -/

/-- Of the nodes `ys` the nodes `qs` are left, and the last of `ys` is gone or still the
last. -/
structure Left (ys qs : List Ptr) (gone : Bool) : Prop where
  sub : ∀ q ∈ qs, q ∈ ys
  kept : gone = false → qs.getLast? = ys.getLast?
  lost : gone = true → ∀ e ∈ ys.getLast?, e ∉ qs

namespace Left

variable {ys qs : List Ptr} {a : Ptr} {gone : Bool}

/-- A node that stays in front of others. -/
theorem keep (k : Left ys qs gone) (hys : ys ≠ []) (ha : a ∉ ys) :
    Left (a :: ys) (a :: qs) gone := by
  obtain ⟨b, bs, rfl⟩ := List.exists_cons_of_ne_nil hys
  refine ⟨fun q hq => ?_, fun hgone => ?_, fun hgone e he => ?_⟩
  · rcases List.mem_cons.mp hq with rfl | hq
    · exact List.mem_cons_self
    · exact List.mem_cons_of_mem _ (k.sub q hq)
  · have hkept := k.kept hgone
    cases qs with
    | nil =>
        rw [List.getLast?_nil, eq_comm, List.getLast?_eq_none_iff] at hkept
        exact absurd hkept hys
    | cons c cs => rw [List.getLast?_cons_cons, hkept, List.getLast?_cons_cons]
  · rw [List.getLast?_cons_cons] at he
    rintro hmem
    rcases List.mem_cons.mp hmem with rfl | hq
    · exact ha (List.mem_of_getLast? he)
    · exact k.lost hgone e he hq

/-- A node that goes in front of others. -/
theorem take (k : Left ys qs gone) (hys : ys ≠ []) : Left (a :: ys) qs gone := by
  obtain ⟨b, bs, rfl⟩ := List.exists_cons_of_ne_nil hys
  refine ⟨fun q hq => List.mem_cons_of_mem _ (k.sub q hq), ?_, ?_⟩
  · rw [List.getLast?_cons_cons]
    exact k.kept
  · rw [List.getLast?_cons_cons]
    exact k.lost

theorem keep_last (k : Left [] qs gone) : Left [a] (a :: qs) false := by
  obtain rfl : qs = [] := List.eq_nil_iff_forall_not_mem.mpr (fun q hq => by simpa using k.sub q hq)
  exact ⟨fun _ hq => hq, fun _ => rfl, fun hgone => Bool.noConfusion hgone⟩

theorem take_last (k : Left [] qs gone) : Left [a] qs true := by
  obtain rfl : qs = [] := List.eq_nil_iff_forall_not_mem.mpr (fun q hq => by simpa using k.sub q hq)
  exact ⟨by simp, fun hgone => Bool.noConfusion hgone, fun _ _ _ => List.not_mem_nil⟩

theorem refl (ys : List Ptr) : Left ys ys false where
  sub _ hq := hq
  kept _ := rfl
  lost hgone := Bool.noConfusion hgone

variable [BEq T] {t v : T} {onlyOne : Bool} {vs : List T}

/-- A turn that passes a node. -/
theorem pass (k : Left ys qs (removesLast t onlyOne vs)) (hempty : ys = [] ↔ vs = [])
    (ha : a ∉ ys) (hv : (v == t) = false) :
    Left (a :: ys) (a :: qs) (removesLast t onlyOne (v :: vs)) := by
  by_cases hvs : vs = []
  · subst hvs
    obtain rfl := hempty.mpr rfl
    rw [removesLast_singleton, hv]
    exact k.keep_last
  · rw [removesLast_cons hvs, hv, Bool.and_false, Bool.not_false, Bool.and_true]
    exact k.keep (mt hempty.mp hvs) ha

/-- The turn that takes a node out and leaves the loop. -/
theorem take_one (hempty : ys = [] ↔ vs = []) (hv : (v == t) = true) :
    Left (a :: ys) ys (removesLast t true (v :: vs)) := by
  by_cases hvs : vs = []
  · subst hvs
    obtain rfl := hempty.mpr rfl
    rw [removesLast_singleton, hv]
    exact (Left.refl []).take_last
  · rw [removesLast_cons hvs, hv, Bool.and_self, Bool.not_true, Bool.and_false]
    exact (Left.refl ys).take (mt hempty.mp hvs)

/-- A turn that takes a node out and goes on. -/
theorem take_on (k : Left ys qs (removesLast t false vs)) (hempty : ys = [] ↔ vs = [])
    (hv : (v == t) = true) : Left (a :: ys) qs (removesLast t false (v :: vs)) := by
  by_cases hvs : vs = []
  · subst hvs
    obtain rfl := hempty.mpr rfl
    rw [removesLast_singleton, hv]
    exact k.take_last
  · rw [removesLast_cons hvs, Bool.false_and, Bool.not_false, Bool.and_true]
    exact k.take (mt hempty.mp hvs)

end Left

/-! ## The loop -/

section Loop

variable [BEq T] {t v : T} {onlyOne : Bool} {h : Heap (Node T)} {l : MList} {tail a : Ptr}
  {xs ys : List Ptr} {ts us vs : List T}

/-- A node of another element is passed. -/
theorem removeTurn_keep (hl : Linked h l.head tail (xs ++ a :: ys) ts)
    (hdata : dataOf h a = some v) (hv : (v == t) = false) :
    removeTurn t onlyOne ((h, l), a) = some (.inl ((h, l), ys.headD null)) := by
  have hnull : a ≠ null := hl.node_ne_null (by simp)
  have hnext : nextOf h a = some (ys.headD null) := hl.chain.next_of_mem
  simp only [removeTurn, hnull, if_false, hnext, hdata, hv, Bool.false_eq_true,
    Option.bind_eq_bind, Option.bind_some, Option.pure_def]

/-- A node of the element is taken out. -/
theorem removeTurn_take (onlyOne : Bool) (hl : Linked h l.head tail (xs ++ a :: ys) ts)
    (hdata : dataOf h a = some v) (hv : (v == t) = true) :
    ∃ h', (removeTurn t onlyOne ((h, l), a) = some
        (if onlyOne then .inr (h', { l with size := l.size - 1 })
          else .inl ((h', { l with size := l.size - 1 }), ys.headD null))) ∧
      Linked h' l.head ((xs ++ ys).getLastD null) (xs ++ ys) (ts.eraseIdx xs.length) := by
  have hnull : a ≠ null := hl.node_ne_null (by simp)
  have hnext : nextOf h a = some (ys.headD null) := hl.chain.next_of_mem
  have hprev : previousOf h a = some (xs.getLastD l.head) := hl.previous_of_mem
  obtain ⟨h1, h2, h3, e1, hnext1, hprev1, e2, e3, l3⟩ := hl.takeOut
  refine ⟨h3, ?_, l3⟩
  cases onlyOne <;>
    simp only [removeTurn, hnull, if_false, hnext, hdata, hv, if_true, hprev, e1, hnext1, hprev1,
      e2, e3, Bool.false_eq_true, Option.bind_eq_bind, Option.bind_some, Option.pure_def]

omit [BEq T] in
/-- The node behind `xs` holds the element behind as many. -/
theorem linked_at (hl : Linked h l.head tail (xs ++ a :: ys) (us ++ v :: vs))
    (hus : xs.length = us.length) : dataOf h a = some v ∧ a ∉ ys ∧ (ys = [] ↔ vs = []) := by
  have hlength := hl.length_eq
  refine ⟨?_, fun hmem => ?_, ?_⟩
  · obtain ⟨w, hw, hdata⟩ := hl.data_getElem (k := xs.length) (a := a) (by simp)
    rw [hus] at hw
    simp at hw
    rwa [hw]
  · exact hl.chain.not_mem_rest (List.mem_cons_of_mem _ (List.mem_append_right _ hmem))
  · rw [List.length_append, List.length_append, hus, List.length_cons, List.length_cons] at hlength
    rw [← List.length_eq_zero_iff, ← List.length_eq_zero_iff]
    omega

/-- The loop from a node on: the element is taken out of what is left of the list, and the
fields but the size stay what they were. -/
theorem removeLoop_run (t : T) (onlyOne : Bool) :
    ∀ {ys xs : List Ptr} {us vs : List T} {h : Heap (Node T)} {l : MList} {tail : Ptr},
      Linked h l.head tail (xs ++ ys) (us ++ vs) → xs.length = us.length →
      l.size.toNat = (us ++ vs).length →
      ∃ h' size qs tail',
        Fuel.loop (removeTurn t onlyOne) (ys.length + 1) ((h, l), ys.headD null) =
          some (h', { l with size := size }) ∧
        Linked h' l.head tail' (xs ++ qs) (us ++ minus t onlyOne vs) ∧
        size.toNat = (us ++ minus t onlyOne vs).length ∧
        Left ys qs (removesLast t onlyOne vs) := by
  intro ys
  induction ys with
  | nil =>
      intro xs us vs h l tail hl hus hsize
      obtain rfl : vs = [] := by
        have hlength := hl.length_eq
        rw [List.length_append, List.length_append, hus] at hlength
        simpa using hlength
      refine ⟨h, l.size, [], tail, ?_, ?_, ?_, .refl []⟩
      · apply Fuel.loop_leave
        simp [removeTurn]
      · rwa [minus_nil]
      · rwa [minus_nil]
  | cons a ys ih =>
      intro xs us vs h l tail hl hus hsize
      cases vs with
      | nil =>
          have hlength := hl.length_eq
          rw [List.length_append, List.length_append, hus] at hlength
          simp at hlength
      | cons v vs =>
          obtain ⟨hdata, hnd, hempty⟩ := linked_at hl hus
          rw [List.headD_cons, List.length_cons]
          cases hv : (v == t) with
          | false =>
              have hl' : Linked h l.head tail ((xs ++ [a]) ++ ys) ((us ++ [v]) ++ vs) := by
                simpa using hl
              obtain ⟨h', size, qs, tail', hloop, hlinked, hsize', hleft⟩ :=
                ih hl' (by simp [hus]) (by simpa using hsize)
              refine ⟨h', size, a :: qs, tail', ?_, ?_, ?_, hleft.pass hempty hnd hv⟩
              · rw [Fuel.loop_next (removeTurn_keep hl hdata hv)]
                exact hloop
              · rw [minus_cons_neg hv]
                simpa using hlinked
              · rw [minus_cons_neg hv]
                simpa using hsize'
          | true =>
              obtain ⟨h1, hturn, hl1⟩ := removeTurn_take onlyOne hl hdata hv
              rw [hus, List.eraseIdx_append_of_length_le (Nat.le_refl _), Nat.sub_self,
                List.eraseIdx_cons_zero] at hl1
              have hsize1 : (l.size - 1).toNat = (us ++ vs).length := by
                rw [List.length_append, List.length_cons] at hsize
                rw [toNat_pred hsize (by omega), List.length_append]
                omega
              rw [minus_cons_pos hv]
              cases onlyOne with
              | true =>
                  exact ⟨h1, l.size - 1, ys, _, Fuel.loop_leave hturn _, hl1, hsize1,
                    .take_one hempty hv⟩
              | false =>
                  obtain ⟨h', size, qs, tail', hloop, hlinked, hsize', hleft⟩ :=
                    ih (l := { l with size := l.size - 1 }) hl1 hus hsize1
                  refine ⟨h', size, qs, tail', ?_, hlinked, hsize', hleft.take_on hempty hv⟩
                  rw [Fuel.loop_next hturn]
                  exact hloop

end Loop

/-! ## When the list stays in order -/

section RemoveOne

variable {h : Heap (Node T)} {l : MList} {ps : List Ptr} {ts : List T} {t : T} {pos : UInt32}
  {onlyOne : Bool}

/-- A well linked list can be used. -/
theorem Sound.usable [Inhabited T] (s : Sound h l ps ts) : Usable (h, l) := by
  refine ⟨fun t => ?_, fun pos => ?_, fun pos => ?_⟩
  · show (l.append h t).isSome
    by_cases hin : l.size + 1 ≥ maxSize
    · rw [append, if_pos hin]
      rfl
    · obtain ⟨σ, qs, happend, -⟩ := append_room s t hin
      rw [happend]
      rfl
  · show (l.at' h pos).isSome
    rw [at'_spec s pos]
    rfl
  · show (l.removeAt h pos).isSome
    obtain ⟨σ, qs, hremove, -⟩ := removeAt_spec s pos
    rw [hremove]
    rfl

variable [BEq T]

/-- What the method leaves: the chain is right, and `m_tail` what it was. -/
theorem removeOne_run (s : Sound h l ps ts) (t : T) (onlyOne : Bool)
    (hpos : pos.toNat < ts.length) :
    ∃ fuel h' size qs tail',
      l.removeOne h t pos onlyOne fuel = some ((h', { l with size := size }), .done) ∧
      Linked h' l.head tail' qs (ts.take pos.toNat ++ minus t onlyOne (ts.drop pos.toNat)) ∧
      size.toNat = (ts.take pos.toNat ++ minus t onlyOne (ts.drop pos.toNat)).length ∧
      l.tail ≠ null ∧ (removesLast t onlyOne (ts.drop pos.toNat) = false → tail' = l.tail) ∧
      (removesLast t onlyOne (ts.drop pos.toNat) = true → l.tail ∉ qs) := by
  obtain ⟨xs, a, ys, rfl, hlength⟩ := s.split hpos
  have hin : ¬ pos ≥ l.size := by
    rw [ge_size_iff s.counted]
    omega
  have hfind : l.findNode h pos = some a := findNode_spec s (by simp [hlength])
  have hl : Linked h l.head l.tail (xs ++ a :: ys)
      (ts.take pos.toNat ++ ts.drop pos.toNat) := by
    rw [List.take_append_drop]
    exact s.linked
  have htake : xs.length = (ts.take pos.toNat).length := by
    rw [List.length_take, Nat.min_eq_left (Nat.le_of_lt hpos), hlength]
  obtain ⟨h', size, qs, tail', hloop, hlinked, hsize, hleft⟩ :=
    removeLoop_run t onlyOne hl htake
      (by rw [List.take_append_drop]; exact s.counted)
  have hlast : l.tail = ys.getLastD a := by rw [s.linked.last, Chain.getLastD_append_cons]
  have hmem : (a :: ys).getLast? = some l.tail := by
    rw [hlast, List.getLast?_cons, List.getLastD_eq_getLast?]
  refine ⟨(a :: ys).length + 1, h', size, xs ++ qs, tail', ?_, hlinked, hsize, ?_, ?_, ?_⟩
  · simp only [removeOne, hin, if_false, hfind]
    rw [List.headD_cons] at hloop
    simp only [hloop, Option.bind_eq_bind, Option.bind_some, Option.pure_def]
  · rw [Ne, s.linked.tail_eq_null_iff]
    simp
  · intro hgone
    have hkept := hleft.kept hgone
    rw [hlinked.last, List.getLastD_eq_getLast?, List.getLast?_append, hkept, hmem]
    rfl
  · intro hgone hq
    rcases List.mem_append.mp hq with hxs | hqs
    · have hnd := (List.nodup_cons.mp s.linked.chain.nodup).2
      exact List.disjoint_of_nodup_append hnd hxs (List.mem_of_getLast? hmem)
    · exact hleft.lost hgone _ hmem hqs

/-- The result does not depend on the fuel. -/
theorem removeOne_unique {n m : Nat} {σ σ' : State T × Answer T}
    (hn : l.removeOne h t pos onlyOne n = some σ) (hm : l.removeOne h t pos onlyOne m = some σ') :
    σ = σ' := by
  unfold removeOne at hn hm
  split at hn
  · rename_i hin
    rw [if_pos hin] at hm
    exact Option.some.inj (hn.symm.trans hm)
  · rename_i hin
    rw [if_neg hin] at hm
    obtain ⟨p, hfind, hn⟩ := Option.bind_eq_some_iff.mp hn
    obtain ⟨q, hfind', hm⟩ := Option.bind_eq_some_iff.mp hm
    obtain rfl : p = q := Option.some.inj (hfind.symm.trans hfind')
    obtain ⟨a, ha, hn⟩ := Option.bind_eq_some_iff.mp hn
    obtain ⟨b, hb, hm⟩ := Option.bind_eq_some_iff.mp hm
    obtain rfl : a = b := Fuel.loop_unique ha hb
    exact Option.some.inj (hn.symm.trans hm)

variable [Inhabited T]

/-- With the last element goes the node of `m_tail`. -/
theorem removeOne_last_wrong (s : Sound h l ps ts)
    (hlast : removesLast t onlyOne (ts.drop pos.toNat) = true) :
    ¬ RemoveOneRight h l ts t pos onlyOne := by
  have hpos : pos.toNat < ts.length := by
    by_contra hle
    rw [List.drop_eq_nil_of_le (Nat.le_of_not_lt hle), removesLast_nil] at hlast
    cases hlast
  rintro ⟨fuel, σ, qs, hrun, ho, -⟩
  obtain ⟨fuel', h', size, qs', tail', hrun', hlinked, -, hnull, -, hgone⟩ :=
    removeOne_run s t onlyOne hpos
  cases removeOne_unique hrun hrun'
  obtain rfl : qs = qs' :=
    Seg.unique (nextOf_null h') ho.forward hlinked.chain.forward
  -- walking backwards starts at `m_tail`, which is none of the nodes
  cases hqs : qs.reverse with
  | nil =>
      have hts := hlinked.length_eq
      rw [List.reverse_eq_nil_iff.mp hqs, List.length_nil] at hts
      exact hnull (ho.tail_null.mpr (List.length_eq_zero_iff.mp hts.symm))
  | cons p rs =>
      refine hgone hlast ?_
      rw [(ho.backward p rs hqs).1, ← List.mem_reverse, hqs]
      exact List.mem_cons_self

/-- **Removal by value from a list.** In a well linked list `removeOne` does what it is for
exactly when the last element is not among those taken out. -/
theorem removeOne_right_iff (s : Sound h l ps ts) (t : T) (pos : UInt32) (onlyOne : Bool) :
    RemoveOneRight h l ts t pos onlyOne ↔ removesLast t onlyOne (ts.drop pos.toNat) = false := by
  constructor
  · intro hright
    by_contra hlast
    exact removeOne_last_wrong s (Bool.not_eq_false _ ▸ hlast) hright
  · intro hlast
    by_cases hpos : pos.toNat < ts.length
    · obtain ⟨fuel, h', size, qs, tail', hrun, hlinked, hsize, -, htail, -⟩ :=
        removeOne_run s t onlyOne hpos
      have s' : Sound h' { l with size := size } qs
          (ts.take pos.toNat ++ minus t onlyOne (ts.drop pos.toNat)) :=
        ⟨htail hlast ▸ hlinked, hsize⟩
      exact ⟨fuel, _, qs, hrun, s'.linked.ordered s'.counted, s'.usable⟩
    · have hin : pos ≥ l.size := (ge_size_iff s.counted pos).mpr (Nat.le_of_not_lt hpos)
      refine ⟨0, (h, l), ps, ?_, ?_, s.usable⟩
      · rw [removeOne, if_pos hin]
        rfl
      · rw [List.take_of_length_le (Nat.le_of_not_lt hpos),
          List.drop_eq_nil_of_le (Nat.le_of_not_lt hpos), minus_nil, List.append_nil]
        exact s.linked.ordered s.counted

end RemoveOne

/-- Of two elements the first can be taken out, but not both. -/
theorem removeOne_right_iff_two :
    ∃ σ ps, (list Nat).run (list Nat).start [.append 7, .append 7] = some (σ, [.done, .done]) ∧
      Sound σ.1 σ.2 ps [7, 7] ∧ RemoveOneRight σ.1 σ.2 [7, 7] 7 0 true ∧
      ¬ RemoveOneRight σ.1 σ.2 [7, 7] 7 0 false := by
  obtain ⟨σ, ps, hrun, r⟩ := run_rep (T := Nat) [.append 7, .append 7]
  have s : Sound σ.1 σ.2 ps [7, 7] := r.sound
  refine ⟨σ, ps, hrun, s, (removeOne_right_iff s 7 0 true).mpr (by decide), ?_⟩
  rw [removeOne_right_iff s 7 0 false]
  decide

/-- The last element goes, and `m_tail` keeps pointing to its deleted node. -/
theorem removeOne_leaves_tail :
    ∃ σ ps, (list Nat).run (list Nat).start [.append 6, .append 7] = some (σ, [.done, .done]) ∧
      Ordered σ.1 σ.2.head σ.2.tail σ.2.size ps [6, 7] ∧
      ¬ RemoveOneRight σ.1 σ.2 [6, 7] 7 0 true := by
  obtain ⟨σ, ps, hrun, r⟩ := run_rep (T := Nat) [.append 6, .append 7]
  have s : Sound σ.1 σ.2 ps [6, 7] := r.sound
  exact ⟨σ, ps, hrun, s.linked.ordered s.counted, removeOne_last_wrong s (by decide)⟩

/-- The next `at` reads from it, although the element it asks for is still there. -/
example :
    ((list Nat).run (list Nat).start [.append 6, .append 7]).bind (fun r =>
      (r.1.2.removeOne r.1.1 7 0 true 3).map (fun q => q.1.2.size)) = some 1 ∧
    ((list Nat).run (list Nat).start [.append 6, .append 7]).bind (fun r =>
      (r.1.2.removeOne r.1.1 7 0 true 3).bind (fun q =>
        ((list Nat).run q.1 [.at' 0]).map Prod.snd)) = none := by
  constructor <;> rfl

end LearnSpace.DataStructure.MList
