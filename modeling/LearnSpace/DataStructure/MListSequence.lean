import LearnSpace.DataStructure.MList

/-!
# The list as a sequence

`Sound h l ps ts` says that `l` holds the sequence `ts` in the nodes `ps`, and `Rep` that it
is also within the size limit. `findNode` finds the node at a position from either end,
since the distance it still has to walk is what its loop counts (`findLoop_run`); every
other method looks at a few links only. `clear` resets the link of the head node, so a list
is in order after every run.
-/

namespace LearnSpace.DataStructure.MList

open Keel Function

variable {T : Type} {h : Heap (Node T)} {l : MList} {ps : List Ptr} {ts : List T} {p : Ptr}

/-- `l` holds the sequence `ts` in the nodes `ps`, and fewer elements than `maxSize`. -/
structure Rep (h : Heap (Node T)) (l : MList) (ps : List Ptr) (ts : List T) : Prop where
  linked : Linked h l.head l.tail ps ts
  counted : l.size.toNat = ts.length
  bounded : ts.length < maxSize.toNat

/-- `l` is well linked and holds the sequence `ts` in the nodes `ps`. -/
structure Sound (h : Heap (Node T)) (l : MList) (ps : List Ptr) (ts : List T) : Prop where
  linked : Linked h l.head l.tail ps ts
  counted : l.size.toNat = ts.length

theorem Rep.sound (r : Rep h l ps ts) : Sound h l ps ts := ⟨r.linked, r.counted⟩

theorem Sound.rep (s : Sound h l ps ts) (hb : ts.length < maxSize.toNat) : Rep h l ps ts :=
  ⟨s.linked, s.counted, hb⟩

/-! ## `findNode` -/

/-- The distance the loop has to walk shrinks by one. -/
theorem findLoop_step {nextMove : Bool} {pos nodePos : UInt32} (q : Ptr)
    (hne : nodePos ≠ pos) :
    (findLoop h nextMove pos).measure (q, if nextMove then nodePos + 1 else nodePos - 1) + 1 =
      (findLoop h nextMove pos).measure (p, nodePos) := by
  have hne' : nodePos.toNat ≠ pos.toNat := fun he => hne (UInt32.toNat_inj.mp he)
  have hlt := nodePos.toNat_lt
  have hlt' := pos.toNat_lt
  cases nextMove <;>
    simp only [findLoop, Bool.false_eq_true, if_false, if_true, UInt32.toNat_sub,
      UInt32.toNat_add, UInt32.toNat_one] <;> omega

/-- At its position the loop ends. -/
theorem findLoop_here {nextMove : Bool} {pos : UInt32} (hp : p ≠ null) :
    (findLoop h nextMove pos).measure (p, pos) = 0 ∧
      (findLoop h nextMove pos).run (p, pos) = .ok p := by
  constructor
  · cases nextMove <;> simp [findLoop]
  · apply While.run_leave
    simp only [findLoop, if_neg hp, if_true]

/-- The loop arrives at the node as many links away as it has to walk. -/
theorem findLoop_run {nextMove : Bool} {pos : UInt32} {e : Ptr} :
    ∀ {xs : List Ptr} {a : Ptr} {nodePos : UInt32},
      Seg (if nextMove then nextOf h else previousOf h) a xs e → (∀ y ∈ a :: xs, y ≠ null) →
      (a :: xs)[(findLoop h nextMove pos).measure (a, nodePos)]? = some p →
      (findLoop h nextMove pos).run (a, nodePos) = .ok p := by
  intro xs
  induction xs with
  | nil =>
      intro a nodePos _ hnull hp
      by_cases hpos : nodePos = pos
      · subst hpos
        obtain ⟨hzero, hrun⟩ := findLoop_here (hnull a List.mem_cons_self)
        rw [hzero] at hp
        cases hp
        exact hrun
      · rw [← findLoop_step a hpos] at hp
        cases hp
  | cons b xs ih =>
      intro a nodePos hseg hnull hp
      have ha := hnull a List.mem_cons_self
      by_cases hpos : nodePos = pos
      · subst hpos
        obtain ⟨hzero, hrun⟩ := findLoop_here ha
        rw [hzero] at hp
        cases hp
        exact hrun
      · rw [← findLoop_step b hpos, List.getElem?_cons_succ] at hp
        rw [While.run_next (t := (b, if nextMove then nodePos + 1 else nodePos - 1))]
        · exact ih hseg.2 (fun y hy => hnull y (List.mem_cons_of_mem _ hy)) hp
        · have hlink : (if nextMove then nextOf h a else previousOf h a) = some b := by
            rw [← hseg.1]
            cases nextMove <;> rfl
          simp only [findLoop, if_neg ha, if_neg hpos, hlink]

namespace Sound

theorem node_ne_null (s : Sound h l ps ts) : ∀ y ∈ ps, y ≠ null :=
  fun _ hy => s.linked.node_ne_null (List.mem_cons_of_mem _ hy)

/-- A position in the list is that of a node. -/
theorem getElem_node (s : Sound h l ps ts) {pos : UInt32} (hpos : pos.toNat < ts.length) :
    ∃ p, ps[pos.toNat]? = some p :=
  ⟨_, List.getElem?_eq_getElem (s.linked.length_eq ▸ hpos)⟩

/-- The list around the node at a position. -/
theorem split (s : Sound h l ps ts) {pos : UInt32} (hpos : pos.toNat < ts.length) :
    ∃ xs a ys, ps = xs ++ a :: ys ∧ pos.toNat = xs.length := by
  have hlt : pos.toNat < ps.length := by rwa [s.linked.length_eq]
  refine ⟨ps.take pos.toNat, ps[pos.toNat], ps.drop (pos.toNat + 1), ?_, ?_⟩
  · rw [List.getElem_cons_drop, List.take_append_drop]
  · rw [List.length_take, Nat.min_eq_left (Nat.le_of_lt hlt)]

end Sound

/-- `findNode` finds the node at a position, whichever end it starts from. -/
theorem findNode_spec (r : Sound h l ps ts) {pos : UInt32} (hp : ps[pos.toNat]? = some p) :
    l.findNode h pos = some p := by
  have hlt : pos.toNat < ts.length := by
    rw [← r.linked.length_eq]
    exact (List.getElem?_eq_some_iff.mp hp).1
  have hin : ¬ pos ≥ l.size := by
    rw [ge_size_iff r.counted]
    omega
  by_cases hhalf : pos < l.size / 2
  · -- forwards from the first node
    cases ps with
    | nil => cases hp
    | cons a xs =>
        have hseg := r.linked.chain.forward
        have hdist : (findLoop h true pos).measure (a, 0) = pos.toNat := by
          simp [findLoop]
        have hrun : (findLoop h true pos).run (a, 0) = .ok p :=
          findLoop_run hseg.2 r.node_ne_null (hdist.symm ▸ hp)
        simp only [findNode, hin, if_false, hhalf, if_true, hseg.1, hrun, Except.toOption,
          Option.bind_eq_bind, Option.bind_some]
  · -- backwards from the last node
    have hlength : (l.size - 1).toNat = ts.length - 1 := toNat_pred r.counted (by omega)
    have hdist : (findLoop h false pos).measure (l.tail, l.size - 1) =
        ts.length - 1 - pos.toNat := by
      have hle : pos ≤ l.size - 1 := by
        rw [UInt32.le_iff_toNat_le, hlength]
        omega
      show (l.size - 1 - pos).toNat = _
      rw [UInt32.toNat_sub_of_le _ _ hle, hlength]
    have hrev : ps.reverse[ts.length - 1 - pos.toNat]? = some p := by
      rw [List.getElem?_reverse (by rw [r.linked.length_eq]; omega), r.linked.length_eq, ← hp]
      congr 1
      omega
    cases hps : ps.reverse with
    | nil =>
        rw [hps] at hrev
        cases hrev
    | cons b xs =>
        obtain ⟨htail, hseg⟩ := (r.linked.ordered r.counted).backward b xs hps
        have hnull : ∀ y ∈ b :: xs, y ≠ null := by
          intro y hy
          rw [← hps, List.mem_reverse] at hy
          exact r.node_ne_null y hy
        rw [htail] at hdist
        rw [hps, ← hdist] at hrev
        have hrun : (findLoop h false pos).run (b, l.size - 1) = .ok p :=
          findLoop_run hseg hnull hrev
        simp only [findNode, hin, if_false, hhalf, htail, hrun, Except.toOption]

/-! ## What the methods do to the sequence -/

theorem construct_rep [Inhabited T] (h : Heap (Node T)) :
    Rep (construct h).1 (construct h).2 [] [] where
  linked := .newNode h
  counted := rfl
  bounded := maxSize_pos

/-- An element appended within the size limit. -/
theorem append_room [Inhabited T] (r : Sound h l ps ts) (t : T) (hin : ¬ l.size + 1 ≥ maxSize) :
    ∃ σ qs, l.append h t = some (σ, .done) ∧
      Linked σ.1 σ.2.head σ.2.tail qs (ts ++ [t]) ∧ σ.2.size = l.size + 1 := by
  have hlive : ∀ p ∈ l.head :: ps, p ∈ h.live := fun p hp => r.linked.node_live hp
  have hlast : ps.getLastD l.head ∈ l.head :: ps := List.getLastD_mem_cons
  obtain ⟨h1, e1, i1⟩ := newNode_inserted h (l.head :: ps) t
  obtain ⟨h2, e2, i2⟩ := i1.setNext hlive (.inr hlast) (newNode h).1
  obtain ⟨h3, e3, i3⟩ := i2.setPrevious hlive (.inl rfl) (ps.getLastD l.head)
  rw [update_idem] at i3
  refine ⟨(h3, { l with tail := (newNode h).1, size := l.size + 1 }), ps ++ [(newNode h).1],
    ?_, r.linked.pushBack (i3.notMem hlive) i3.ne_null i3.next i3.previous i3.data, rfl⟩
  by_cases hsize : l.size = 0
  · have hps : ps = [] := by
      rw [← List.length_eq_zero_iff, r.linked.length_eq, List.length_eq_zero_iff]
      exact (size_eq_zero_iff r.counted).mp hsize
    rw [hps, List.getLastD_nil] at e2 e3
    rw [append, if_neg hin]
    simp only [e1, if_pos hsize, e2, e3, Option.bind_eq_bind, Option.bind_some, Option.pure_def]
  · have hps : l.tail ≠ null := by
      rw [Ne, r.linked.tail_eq_null_iff, ← List.length_eq_zero_iff, r.linked.length_eq,
        List.length_eq_zero_iff, ← size_eq_zero_iff r.counted]
      exact hsize
    have hback : l.tail = ps.getLastD l.head := by
      rw [← r.linked.back_eq, back, if_neg hps]
    rw [← hback] at e2 e3
    rw [append, if_neg hin]
    simp only [e1, if_neg hsize, e2, e3, Option.bind_eq_bind, Option.bind_some, Option.pure_def]

theorem append_spec [Inhabited T] (r : Rep h l ps ts) (t : T) :
    ∃ σ qs, l.append h t = some (σ, .done) ∧
      Rep σ.1 σ.2 qs (if ts.length + 1 < maxSize.toNat then ts ++ [t] else ts) := by
  have hguard : l.size + 1 ≥ maxSize ↔ ¬ ts.length + 1 < maxSize.toNat := by
    show maxSize ≤ l.size + 1 ↔ _
    rw [UInt32.le_iff_toNat_le, toNat_succ r.counted (Nat.le_of_lt r.bounded)]
    omega
  by_cases hroom : ts.length + 1 < maxSize.toNat
  · obtain ⟨σ, qs, happend, hlinked, hsize⟩ :=
      append_room r.sound t (fun hge => hguard.mp hge hroom)
    refine ⟨σ, qs, happend, ?_⟩
    rw [if_pos hroom]
    refine ⟨hlinked, ?_, ?_⟩
    · rw [hsize, List.length_append]
      exact toNat_succ r.counted (Nat.le_of_lt r.bounded)
    · rw [List.length_append]
      exact hroom
  · -- a full list drops the element without a word
    refine ⟨(h, l), ps, ?_, ?_⟩
    · rw [append, if_pos (hguard.mpr hroom)]
      rfl
    · rw [if_neg hroom]
      exact r

theorem removeAt_spec (r : Sound h l ps ts) (pos : UInt32) :
    ∃ σ qs, l.removeAt h pos = some (σ, .done) ∧ Sound σ.1 σ.2 qs (ts.eraseIdx pos.toNat) := by
  by_cases hin : pos.toNat < ts.length
  · have hguard : ¬ pos ≥ l.size := by
      rw [ge_size_iff r.counted]
      omega
    obtain ⟨xs, a, ys, rfl, hlength⟩ := r.split hin
    have hfind : l.findNode h pos = some a := findNode_spec r (by simp [hlength])
    have hprev : previousOf h a = some (xs.getLastD l.head) := r.linked.previous_of_mem
    have hnext : nextOf h a = some (ys.headD null) := r.linked.chain.next_of_mem
    obtain ⟨h1, h2, h3, e1, hnext1, hprev1, e2, e3, l3⟩ := r.linked.takeOut
    -- the new tail is the node before, unless that is the head node
    have htail : (if a = l.tail then
          if xs.getLastD l.head ≠ l.head then some (xs.getLastD l.head) else some null
        else some l.tail) = some ((xs ++ ys).getLastD null) := by
      cases ys with
      | nil =>
          have hlast : l.tail = a := by rw [r.linked.last, List.getLastD_concat]
          rw [if_pos hlast.symm, ite_not, List.append_nil, ← r.linked.head_or_last]
          exact (apply_ite some _ _ _).symm
      | cons b ys =>
          have hlast : l.tail = ys.getLastD b := by
            rw [r.linked.last, Chain.getLastD_append_cons, List.getLastD_cons]
          have hne : a ≠ l.tail := by
            have hmem : ys.getLastD b ∈ b :: ys := List.getLastD_mem_cons
            intro he
            refine r.linked.chain.not_mem_rest (List.mem_cons_of_mem _ ?_)
            rw [he, hlast]
            exact List.mem_append_right _ hmem
          rw [if_neg hne, hlast, Chain.getLastD_append_cons]
    rw [hlength]
    refine ⟨(h3, { l with tail := (xs ++ ys).getLastD null, size := l.size - 1 }), xs ++ ys,
      ?_, l3, ?_⟩
    · simp only [removeAt, hguard, if_false, hfind, htail, hprev, hnext, e1, hnext1, hprev1, e2,
        e3, Option.bind_eq_bind, Option.bind_some, Option.pure_def]
    · rw [List.length_eraseIdx_of_lt (hlength ▸ hin)]
      exact toNat_pred r.counted (by omega)
  · have hout : pos ≥ l.size := by
      rw [ge_size_iff r.counted]
      omega
    refine ⟨(h, l), ps, ?_, ?_⟩
    · rw [removeAt, if_pos hout]
      rfl
    · rw [List.eraseIdx_of_length_le (by omega)]
      exact r

theorem swap_spec (r : Sound h l ps ts) {first second : UInt32} (hfirst : first.toNat < ts.length)
    (hsecond : second.toNat < ts.length) :
    ∃ σ qs, l.swap h first second = some (σ, .done) ∧
      Sound σ.1 σ.2 qs (swapAt ts first.toNat second.toNat) := by
  have hguard : ¬ (first ≥ l.size ∨ second ≥ l.size) := by
    rw [ge_size_iff r.counted, ge_size_iff r.counted]
    omega
  obtain ⟨a, ha⟩ := r.getElem_node hfirst
  obtain ⟨b, hb⟩ := r.getElem_node hsecond
  have hmem : a ∈ l.head :: ps := List.mem_cons_of_mem _ (List.mem_of_getElem? ha)
  have hmem' : b ∈ l.head :: ps := List.mem_cons_of_mem _ (List.mem_of_getElem? hb)
  obtain ⟨t, ht, hta⟩ := r.linked.data_getElem ha
  obtain ⟨u, hu, hub⟩ := r.linked.data_getElem hb
  obtain ⟨h1, e1, s1⟩ := setData_spec (r.linked.node_live hmem) u
  obtain ⟨h2, e2, s2⟩ := setData_spec (s1.live ▸ r.linked.node_live hmem') t
  have l1 := r.linked.overwrite ha s1
  refine ⟨(h2, l), ps, ?_, ?_⟩
  · simp only [swap, hguard, if_false, findNode_spec r ha, findNode_spec r hb, hta, hub, e1, e2,
      Option.bind_eq_bind, Option.bind_some, Option.pure_def]
  · rw [swapAt_eq ht hu]
    refine ⟨l1.overwrite hb s2, ?_⟩
    rw [List.length_set, List.length_set]
    exact r.counted

theorem at'_spec (r : Sound h l ps ts) (pos : UInt32) :
    l.at' h pos = some ((h, l), ts[pos.toNat]?.elim .outOfRange .value) := by
  by_cases hin : pos.toNat < ts.length
  · have hguard : ¬ pos ≥ l.size := by
      rw [ge_size_iff r.counted]
      omega
    obtain ⟨a, ha⟩ := r.getElem_node hin
    obtain ⟨t, ht, hdata⟩ := r.linked.data_getElem ha
    simp only [at', hguard, if_false, findNode_spec r ha, hdata, ht, Option.elim_some,
      Option.bind_eq_bind, Option.bind_some, Option.pure_def]
  · have hout : pos ≥ l.size := by
      rw [ge_size_iff r.counted]
      omega
    rw [at', if_pos hout, List.getElem?_eq_none (Nat.le_of_not_lt hin)]
    rfl

theorem clear_spec (r : Sound h l ps ts) :
    ∃ σ, l.clear h = some (σ, .done) ∧ Sound σ.1 σ.2 [] ([] : List T) := by
  have hhead : l.head ∈ h.live := r.linked.head_live
  -- the loop leaves the head node alone
  obtain ⟨h1, hnext, hdel, hlive⟩ : ∃ h1, nextOf h l.head = some (ps.headD null) ∧
      deleteFrom h (ps.headD null) = some h1 ∧ l.head ∈ h1.live := by
    have hseg := r.linked.chain.forward
    cases ps with
    | nil => exact ⟨h, hseg, deleteFrom_null h, hhead⟩
    | cons a xs =>
        have hnd := List.nodup_cons.mp r.linked.chain.nodup
        obtain ⟨h1, hdel, hx⟩ := deleteFrom_chain hnd.2 hseg.2
        obtain ⟨y, hy⟩ := Heap.mem_live.mp hhead
        have hcell := hx.frame l.head hnd.1 List.not_mem_nil
        exact ⟨h1, hseg.1, hdel, Heap.mem_live.mpr ⟨y, hcell.trans hy⟩⟩
  obtain ⟨h2, e2, s2⟩ := setNext_spec hlive null
  refine ⟨(h2, { l with size := 0, tail := null }), ?_, .nil ?_, rfl⟩
  · simp only [clear, hnext, hdel, e2, Option.bind_eq_bind, Option.bind_some, Option.pure_def]
  · rw [s2.next, update_self]

/-! ## Runs -/

section Runs

variable [Inhabited T]

/-- One call on a list that holds `ts`. -/
theorem call_spec (r : Rep h l ps ts) (c : Call T) :
    ∃ σ qs, l.call h c = some (σ, ((sequence T).next ts c).2) ∧
      Rep σ.1 σ.2 qs ((sequence T).next ts c).1 := by
  cases c with
  | append t => exact append_spec r t
  | removeAt pos =>
      obtain ⟨σ, qs, hcall, r'⟩ := removeAt_spec r.sound pos
      exact ⟨σ, qs, hcall, r'.rep (Nat.lt_of_le_of_lt (List.length_eraseIdx_le ..) r.bounded)⟩
  | swap first second =>
      by_cases hin : first.toNat < ts.length ∧ second.toNat < ts.length
      · obtain ⟨σ, qs, hcall, r'⟩ := swap_spec r.sound hin.1 hin.2
        refine ⟨σ, qs, ?_, ?_⟩ <;> simp only [sequence, if_pos hin]
        · exact hcall
        · exact r'.rep (by rw [length_swapAt]; exact r.bounded)
      · have hout : first ≥ l.size ∨ second ≥ l.size := by
          rw [ge_size_iff r.counted, ge_size_iff r.counted]
          omega
        refine ⟨(h, l), ps, ?_, ?_⟩ <;> simp only [sequence, if_neg hin]
        · rw [call, swap, if_pos hout]
          rfl
        · exact r
  | clear =>
      obtain ⟨σ, hcall, r'⟩ := clear_spec r.sound
      exact ⟨σ, [], hcall, r'.rep maxSize_pos⟩
  | at' pos => exact ⟨(h, l), ps, at'_spec r.sound pos, r⟩
  | size =>
      refine ⟨(h, l), ps, ?_, r⟩
      rw [call, r.counted]
      rfl

theorem refines_sequence :
    (list T).Refines (fun _ _ => True) (sequence T) (fun σ ts => ∃ ps, Rep σ.1 σ.2 ps ts) where
  start := ⟨[], construct_rep .empty⟩
  exec := by
    rintro σ ts c ⟨ps, r⟩ -
    obtain ⟨σ', qs, hcall, r'⟩ := call_spec r c
    exact ⟨σ', hcall, qs, r'⟩

/-- Every run ends in a list that holds what the sequence does. -/
theorem run_rep (cs : List (Call T)) :
    ∃ σ ps, (list T).run (list T).start cs = some (σ, ((sequence T).run [] cs).2) ∧
      Rep σ.1 σ.2 ps ((sequence T).run [] cs).1 := by
  obtain ⟨σ, hrun, ps, r⟩ := (refines_sequence (T := T)).run cs ((list T).obeys_true _ cs)
  exact ⟨σ, ps, hrun, r⟩

/-- **The list as a sequence.** No run leaves the nodes; every run answers as the sequence
does and ends in a list whose two chains and size agree. -/
theorem list_sequence (cs : List (Call T)) :
    ∃ σ ps, (list T).run (list T).start cs = some (σ, ((sequence T).run [] cs).2) ∧
      Ordered σ.1 σ.2.head σ.2.tail σ.2.size ps ((sequence T).run [] cs).1 := by
  obtain ⟨σ, ps, hrun, r⟩ := run_rep cs
  exact ⟨σ, ps, hrun, r.linked.ordered r.counted⟩

end Runs

/-- Both ends of `findNode`, and a list that is used again after `clear`. -/
example :
    ((list Nat).run (list Nat).start
      [.append 1, .append 2, .append 3, .at' 0, .at' 2, .swap 0 2, .removeAt 1, .at' 1, .clear,
        .append 4, .at' 0, .at' 1]).map Prod.snd =
      some [.done, .done, .done, .value 1, .value 3, .done, .done, .value 1, .done, .done,
        .value 4, .outOfRange] := by
  rfl

end LearnSpace.DataStructure.MList
