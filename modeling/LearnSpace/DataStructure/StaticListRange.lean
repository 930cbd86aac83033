import LearnSpace.DataStructure.StaticListSequence

/-!
# Removing a range from the list in an array

The three paths of `removeAt(uint, uint)` each leave something. One element is removed as
`removeAt(uint)` does it, which frees the slot of the last one only. A range that reaches
the end clears the list, and what was in front of the range with it. A range further inside
is left out by a link that goes one node too far: behind the first element that is to stay.

A list is consistent if it holds its elements and its array is whole; where the first
element names its previous one and the last its next one is left open, up to what the
list needs. `append` has the first element name itself.
-/

namespace LearnSpace.DataStructure.StaticList

open Keel Function

variable {T : Type} {l l' : StaticList T} {ts : List T} {slots : List Int}

/-! ## Walks along a list -/

/-- A walk along a chain of links. -/
theorem walk_chain {link : Int → Option Int} (n : Nat) :
    ∀ {i : Int} {js : List Int}, (i :: js).IsChain (fun a b => link a = some b) →
      n ≤ js.length → walk link n i = (i :: js)[n]? := by
  induction n with
  | zero => exact fun _ _ => rfl
  | succ n ih =>
      intro i js hchain hle
      cases js with
      | nil => cases hle
      | cons j js =>
          obtain ⟨hlink, hrest⟩ := List.isChain_cons_cons.mp hchain
          rw [walk, hlink, Option.bind_some, ih hrest (Nat.le_of_succ_le_succ hle)]
          rfl

theorem walk_add (link : Int → Option Int) (m n : Nat) :
    ∀ i, walk link (m + n) i = (walk link m i).bind (walk link n) := by
  induction m with
  | zero =>
      intro i
      rw [Nat.zero_add, walk, Option.bind_some]
  | succ m ih =>
      intro i
      rw [Nat.succ_add, walk, walk, Option.bind_assoc]
      exact congrArg _ (funext ih)

/-- What `findNodeIndex` finds, if the links of a list lead through `slots` both ways. -/
theorem findNodeIndex_of_chains (hsize : l.size = slots.length)
    (hnext : (0 :: slots).IsChain (fun i j => l.nextOf i = some j))
    (hprevious : (0 :: slots.reverse).IsChain (fun i j => l.previousOf i = some j)) {pos : Nat}
    (hpos : pos < slots.length) : l.findNodeIndex pos = slots[pos]? := by
  have hfront := walk_chain (pos + 1) hnext hpos
  have hback := walk_chain (l.size - 1 - pos + 1) hprevious (by rw [List.length_reverse]; omega)
  rw [List.getElem?_cons_succ, List.getElem?_reverse (by omega)] at hback
  rw [findNodeIndex, if_neg (by omega)]
  split
  · rw [show slots.length - 1 - (l.size - 1 - pos) = pos by omega] at hback
    exact hback
  · exact hfront

namespace Holds

theorem findNodeIndex (h : l.Holds ts slots) {pos : Nat} (hpos : pos < slots.length) :
    l.findNodeIndex pos = slots[pos]? :=
  findNodeIndex_of_chains (h.size.trans h.length_slots.symm) h.next_chain h.previous_chain hpos

/-- The links and the data are enough to tell what a list holds. -/
theorem of_chains (hsize : l.size = ts.length) (hlength : slots.length = ts.length)
    (inside : ∀ i ∈ slots, 1 ≤ i ∧ i < l.capacity) (nodup : slots.Nodup)
    (hnext : (0 :: slots).IsChain (fun i j => l.nextOf i = some j))
    (hprevious : (0 :: slots.reverse).IsChain (fun i j => l.previousOf i = some j))
    (data : slots.map l.dataOf = ts.map some)
    (free : ∀ i : Nat, 1 ≤ i → i < l.capacity → (i : Int) ∉ slots →
      l.previousOf i = some npos) : l.Holds ts slots where
  size := hsize
  inside := inside
  nodup := nodup
  forwards := follow_eq_some.mpr ⟨hlength.trans hsize.symm, hnext⟩
  backwards := follow_eq_some.mpr
    ⟨(List.length_reverse.trans hlength).trans hsize.symm, hprevious⟩
  data := data
  at' pos := by
    by_cases hpos : pos < ts.length
    · have hfind := findNodeIndex_of_chains (hsize.trans hlength.symm) hnext hprevious
        (hlength ▸ hpos)
      have hdata := congrArg (fun us => us[pos]?) data
      simp only [List.getElem?_map, List.getElem?_eq_getElem hpos,
        List.getElem?_eq_getElem (hlength ▸ hpos : pos < slots.length), Option.map_some,
        Option.some_inj] at hdata
      rw [StaticList.at', if_neg (by omega), hfind,
        List.getElem?_eq_getElem (hlength ▸ hpos : pos < slots.length), Option.bind_eq_bind,
        Option.bind_some, hdata, List.getElem?_eq_getElem hpos]
      rfl
    · rw [StaticList.at', if_pos (by omega), List.getElem?_eq_none (by omega)]
      rfl
  free := free

end Holds

/-! ## Consistent lists -/

/-- The list holds `ts` in the slots `slots`, in an array that is whole. The first element
does not look free, and no link leads on from the last one to an element. -/
structure Consistent (l : StaticList T) (ts : List T) (slots : List Int) : Prop
    extends Holds l ts slots where
  bounded : l.capacity ≤ maxSize
  array : ∀ i, (l.slot i).isSome ↔ 0 ≤ i ∧ i < l.capacity
  first : ∀ i, slots.head? = some i → ∃ p : Nat, l.previousOf i = some (p : Int) ∧ p < l.capacity
  last : ∀ i, slots.getLast? = some i → ∃ q, l.nextOf i = some q ∧ q ∉ slots

namespace Holds

variable {k : Nat} {i j : Int}

/-- The links forwards. -/
theorem nextOf_getElem (h : l.Holds ts slots) (hi : (0 :: slots)[k]? = some i)
    (hj : slots[k]? = some j) : l.nextOf i = some j := by
  have hk := (List.getElem?_eq_some_iff.mp hj).1
  have hlink := h.next_chain.getElem k (Nat.succ_lt_succ hk)
  rw [(List.getElem?_eq_some_iff.mp hi).2, List.getElem_cons_succ,
    (List.getElem?_eq_some_iff.mp hj).2] at hlink
  exact hlink

/-- The links backwards. -/
theorem previousOf_getElem (h : l.Holds ts slots) (hi : slots[k]? = some i)
    (hj : slots[k + 1]? = some j) : l.previousOf j = some i := by
  have hk := (List.getElem?_eq_some_iff.mp hj).1
  have hlink := (List.isChain_reverse.mp h.previous_chain.tail).getElem k hk
  rw [(List.getElem?_eq_some_iff.mp hi).2, (List.getElem?_eq_some_iff.mp hj).2] at hlink
  exact hlink

theorem previousOf_zero (h : l.Holds ts slots) (hi : slots.getLast? = some i) :
    l.previousOf 0 = some i := by
  obtain ⟨xs, rfl⟩ := List.getLast?_eq_some_iff.mp hi
  have hchain := h.previous_chain
  rw [List.reverse_append, List.reverse_singleton, List.singleton_append] at hchain
  exact (List.isChain_cons_cons.mp hchain).1

theorem zero_notMem (h : l.Holds ts slots) : (0 : Int) ∉ slots :=
  fun hmem => absurd (h.inside 0 hmem).1 (by decide)

end Holds

namespace Consistent

variable {k : Nat} {i : Int}

theorem length_lt (h : l.Consistent ts slots) : slots.length < 2 ^ 16 := by
  have hbounded := h.bounded
  have hsub : slots ⊆ firstSlots l.capacity := fun i hi =>
    mem_firstSlots.mpr ⟨(h.inside i hi).1, Int.le_of_lt (h.inside i hi).2⟩
  have hle := (List.subperm_of_subset h.nodup hsub).length_le
  rw [length_firstSlots] at hle
  unfold maxSize at hbounded
  omega

/-- No element looks free. -/
theorem previous_exists (h : l.Consistent ts slots) (hi : slots[k]? = some i) :
    ∃ p : Nat, l.previousOf i = some (p : Int) ∧ p < l.capacity := by
  cases k with
  | zero => exact h.first i (by rwa [List.head?_eq_getElem?])
  | succ k =>
      have hk : k < slots.length := Nat.lt_of_succ_lt (List.getElem?_eq_some_iff.mp hi).1
      have hprevious := h.previousOf_getElem (List.getElem?_eq_getElem hk) hi
      obtain ⟨hlow, hhigh⟩ := h.inside slots[k] (List.getElem_mem hk)
      exact ⟨slots[k].toNat, by rwa [Int.toNat_of_nonneg (by omega)], by omega⟩

/-- No element is linked to itself. -/
theorem next_exists (h : l.Consistent ts slots) (hi : slots[k]? = some i) :
    ∃ q, l.nextOf i = some q ∧ q ≠ i := by
  obtain ⟨hk, rfl⟩ := List.getElem?_eq_some_iff.mp hi
  by_cases hlast : k + 1 < slots.length
  · refine ⟨_, h.nextOf_getElem (k := k + 1) hi (List.getElem?_eq_getElem hlast), ?_⟩
    intro heq
    exact absurd (h.nodup.getElem_inj_iff.mp heq) (by omega)
  · obtain ⟨q, hq, hout⟩ := h.last slots[k] (by
      rw [List.getLast?_eq_getElem?, ← hi]
      congr 1
      omega)
    exact ⟨q, hq, fun heq => hout (heq ▸ List.getElem_mem hk)⟩

/-- Being consistent is a matter of the links, the data and the array. -/
theorem congr (h : l.Consistent ts slots) (s : SameShape l l') (hnext : l'.nextOf = l.nextOf)
    (hprevious : l'.previousOf = l.previousOf) (hdata : l'.dataOf = l.dataOf) :
    l'.Consistent ts slots where
  toHolds := .of_chains (s.size.trans h.size) h.length_slots (s.capacity ▸ h.inside) h.nodup
    (hnext ▸ h.next_chain) (hprevious ▸ h.previous_chain) (hdata ▸ h.data)
    (hprevious ▸ s.capacity ▸ h.free)
  bounded := s.capacity ▸ h.bounded
  array i := by rw [s.isSome, s.capacity, h.array]
  first := hprevious ▸ s.capacity ▸ h.first
  last := hnext ▸ h.last

end Consistent

theorem array_of_length (hlength : l.head.length = l.capacity) (i : Int) :
    (l.slot i).isSome ↔ 0 ≤ i ∧ i < l.capacity := by
  rw [slot]
  split
  · simp only [Option.isSome_none, Bool.false_eq_true, false_iff]
    omega
  · rw [isSome_getElem?]
    omega

theorem construct_consistent : (construct : StaticList T).Consistent [] [] where
  toHolds := construct_packed.holds
  bounded := show 10 ≤ maxSize by decide
  array := array_of_length (List.length_replicate ..)
  first := nofun
  last := nofun

/-! ## Writes that were made -/

theorem modify_some {i : Int} {f : Slot T → Slot T} (h : l.modify i f = some l') :
    (l.slot i).isSome ∧ Writes l l' i f := by
  cases hi : l.slot i with
  | none =>
      rw [modify_none hi] at h
      cases h
  | some x =>
      obtain ⟨l1, h1, w⟩ := modify_spec (Option.isSome_iff_exists.mpr ⟨x, hi⟩) f
      rw [h] at h1
      cases h1
      exact ⟨rfl, w⟩

/-- A link and the link back, which `removeAt` sets to leave out what is between. -/
structure Relinked (l l' : StaticList T) (pre next target : Int) : Prop where
  shape : SameShape l l'
  slots : (l.slot pre).isSome ∧ (l.slot target).isSome
  nextOf : l'.nextOf = update l.nextOf pre (some next)
  previousOf : l'.previousOf = update l.previousOf target (some pre)
  dataOf : l'.dataOf = l.dataOf

theorem relinked_of_some {pre next target : Int} {l1 : StaticList T}
    (h1 : l.modify pre (fun node => { node with next := next }) = some l1)
    (h2 : l1.modify target (fun node => { node with previous := pre }) = some l') :
    Relinked l l' pre next target := by
  obtain ⟨hpre, w1⟩ := modify_some h1
  obtain ⟨htarget, w2⟩ := modify_some h2
  refine ⟨w1.shape.write w2, ⟨hpre, ?_⟩, ?_, ?_, ?_⟩
  · rwa [← w1.isSome]
  · rw [w2.nextOf_keep (fun _ => rfl), w1.nextOf hpre (fun _ => rfl)]
  · rw [w2.previousOf htarget (fun _ => rfl), w1.previousOf_keep (fun _ => rfl)]
  · rw [w2.dataOf_keep (fun _ => rfl), w1.dataOf_keep (fun _ => rfl)]

/-- The loop that frees nodes takes links away and sets no others. -/
theorem freeNodes_links {n : Nat} :
    ∀ {i : Int} {l : StaticList T}, freeNodes n i l = some l' →
      l'.size = l.size ∧ ∀ a, l'.nextOf a = l.nextOf a ∨ l'.nextOf a = some npos := by
  induction n with
  | zero =>
      intro i l h
      cases h
      exact ⟨rfl, fun _ => .inl rfl⟩
  | succ n ih =>
      intro i l h
      rw [freeNodes] at h
      obtain ⟨next, -, h⟩ := Option.bind_eq_some_iff.mp h
      obtain ⟨l1, h1, h⟩ := Option.bind_eq_some_iff.mp h
      obtain ⟨hi, w⟩ := modify_some h1
      obtain ⟨hsize, hlinks⟩ := ih h
      rw [w.nextOf hi (fun _ => rfl)] at hlinks
      refine ⟨hsize.trans w.size, fun a => ?_⟩
      by_cases ha : a = i
      · subst ha
        rcases hlinks a with hlink | hlink
        · exact .inr (hlink.trans (update_self ..))
        · exact .inr hlink
      · have hlink := hlinks a
        rwa [update_of_ne ha] at hlink

/-- What stays when the range of `len` elements from `pos` on is removed. -/
def cut {α : Type} (pos len : Nat) (xs : List α) : List α := xs.take pos ++ xs.drop (pos + len)

theorem notMem_cut {α : Type} {xs : List α} {pos : Nat} (hnodup : xs.Nodup)
    (hpos : pos < xs.length) : xs[pos] ∉ cut pos 1 xs := by
  rw [← List.take_append_drop pos xs, ← List.cons_getElem_drop_succ (h := hpos),
    List.nodup_middle] at hnodup
  exact (List.nodup_cons.mp hnodup).1

/-! ## One element -/

section One

/-- What the removal of one element further inside leaves. -/
theorem removeAt_inner (h : l.Consistent ts slots) {pos : Nat} {i : Int}
    (hi : slots[pos]? = some i) (hinner : pos + 1 < slots.length)
    (hrun : l.removeAt pos = some l') :
    l'.capacity = l.capacity ∧ l'.previousOf i = l.previousOf i := by
  have hsize := h.size
  have hlength := h.length_slots
  obtain ⟨q, hq, hne⟩ := h.next_exists hi
  rw [removeAt, if_neg (by omega), if_neg (by omega)] at hrun
  simp only [h.findNodeIndex (Nat.lt_of_succ_lt hinner), hi, hq, Option.bind_eq_bind,
    Option.bind_some] at hrun
  obtain ⟨l2, hrun, hl'⟩ := Option.bind_eq_some_iff.mp hrun
  obtain ⟨pre, -, hrun⟩ := Option.bind_eq_some_iff.mp hrun
  obtain ⟨l1, h1, h2⟩ := Option.bind_eq_some_iff.mp hrun
  have r := relinked_of_some h1 h2
  cases hl'
  exact ⟨r.shape.capacity, (congrFun r.previousOf i).trans (update_of_ne hne.symm _ _)⟩

/-- Its slot is not freed. -/
theorem removeAt_inner_fails (h : l.Consistent ts slots) {pos : Nat}
    (hinner : pos + 1 < slots.length) {us : List T} (hrun : l.removeAt pos = some l')
    (hholds : l'.Holds us (cut pos 1 slots)) : False := by
  have hi := List.getElem?_eq_getElem (Nat.lt_of_succ_lt hinner)
  obtain ⟨hcapacity, hprevious⟩ := removeAt_inner h hi hinner hrun
  obtain ⟨p, hp, -⟩ := h.previous_exists hi
  obtain ⟨hlow, hhigh⟩ := h.inside slots[pos] (List.getElem_mem _)
  have hcast : ((slots[pos].toNat : Nat) : Int) = slots[pos] := Int.toNat_of_nonneg (by omega)
  have hout := notMem_cut h.nodup (Nat.lt_of_succ_lt hinner)
  have hfree := hholds.free slots[pos].toNat (by omega) (by omega) (by rwa [hcast])
  rw [hcast, hprevious, hp, Option.some_inj, npos] at hfree
  omega

/-- A link that is taken away at the end of a chain. -/
theorem chain_cut_last {link : Int → Option Int} {v : Option Int} {xs : List Int} {b : Int}
    (hnodup : (xs ++ [b]).Nodup) (hchain : (xs ++ [b]).IsChain (fun i j => link i = some j)) :
    (xs ++ [b]).IsChain (fun i j => update link b v i = some j) := by
  have hne : ∀ i ∈ xs, i ≠ b := fun i hi heq =>
    (List.nodup_append.mp hnodup).2.2 i hi b List.mem_cons_self heq
  obtain ⟨hxs, -, hlast⟩ := List.isChain_append.mp hchain
  refine List.isChain_append.mpr ⟨?_, List.isChain_singleton b, ?_⟩
  · refine hxs.imp_of_mem_imp fun i j hi _ hlink => ?_
    rwa [update_of_ne (hne i hi)]
  · intro i hi j hj
    rw [update_of_ne (hne i (List.mem_of_getLast? hi))]
    exact hlast i hi j hj

section Last

variable {xs : List Int} {e : Int} {us : List T} {t : T}

/-- What the removal of the last element writes. The slot in front gets to be the last one. -/
theorem removeAt_end_run (h : l.Consistent (us ++ [t]) (xs ++ [e])) :
    ∃ l' p, l.removeAt (l.size - 1) = some l' ∧ l.previousOf e = some p ∧ 0 ≤ p ∧
      l'.size = l.size - 1 ∧ l'.capacity = l.capacity ∧
      (∀ i, (l'.slot i).isSome = (l.slot i).isSome) ∧
      l'.nextOf = update l.nextOf p (some npos) ∧
      l'.previousOf = update (update l.previousOf 0 (some (if p = 0 then npos else p))) e
        (some npos) ∧ l'.dataOf = l.dataOf := by
  have hsize := h.size
  rw [List.length_append, List.length_singleton] at hsize
  have htail := h.previousOf_zero (List.getLast?_concat (l := xs) (a := e))
  obtain ⟨p, hp, hpin⟩ := h.previous_exists (k := xs.length) (i := e) (by simp)
  obtain ⟨hlow, hhigh⟩ := h.inside e (by simp)
  have hcell : (l.slot p).isSome := (h.array p).mpr (by omega)
  obtain ⟨l1, h1, w1⟩ := modify_spec hcell (fun node => { node with next := npos })
  have hhead : (l1.slot 0).isSome := by
    rw [w1.isSome, h.array]
    omega
  obtain ⟨l2, h2, w2⟩ := modify_spec hhead
    (fun head => { head with previous := if (p : Int) = 0 then npos else p })
  have hend : (l2.slot e).isSome := by
    rw [w2.isSome, w1.isSome, h.array]
    omega
  obtain ⟨l3, h3, w3⟩ := modify_spec hend (fun node => { node with previous := npos })
  have s3 := (w1.shape.write w2).write w3
  have hprevious1 := w1.previousOf_keep (fun _ => rfl)
  refine ⟨{ l3 with size := l3.size - 1 }, p, ?_, hp, by omega, congrArg (· - 1) s3.size,
    s3.capacity, s3.isSome, ?_, ?_, ?_⟩
  · rw [removeAt, if_neg (by omega), if_pos rfl]
    simp only [htail, hp, h1, hprevious1, h2, h3, Option.bind_eq_bind, Option.bind_some,
      Option.pure_def]
  · show l3.nextOf = _
    rw [w3.nextOf_keep (fun _ => rfl), w2.nextOf_keep (fun _ => rfl),
      w1.nextOf hcell (fun _ => rfl)]
    rfl
  · show l3.previousOf = _
    rw [w3.previousOf hend (fun _ => rfl), w2.previousOf hhead (fun _ => rfl), hprevious1]
    rfl
  · show l3.dataOf = _
    rw [w3.dataOf_keep (fun _ => rfl), w2.dataOf_keep (fun _ => rfl),
      w1.dataOf_keep (fun _ => rfl)]

/-- The slot in front of the last one is the last one that stays. -/
theorem front_of_end (h : l.Consistent (us ++ [t]) (xs ++ [e])) {p b : Int}
    (hp : l.previousOf e = some p) (hb : xs.getLast? = some b) : p = b := by
  obtain ⟨ys, rfl⟩ := List.getLast?_eq_some_iff.mp hb
  have hlink := h.previousOf_getElem (k := ys.length) (i := b) (j := e) (by simp) (by simp)
  exact Option.some_inj.mp (hp.symm.trans hlink)

/-- The links forwards, without the one to the last element. -/
theorem next_chain_end (h : l.Consistent (us ++ [t]) (xs ++ [e])) {p : Int}
    (hp : l.previousOf e = some p) :
    (0 :: xs).IsChain (fun i j => update l.nextOf p (some npos) i = some j) := by
  rcases xs.eq_nil_or_concat' with rfl | ⟨ys, b, rfl⟩
  · exact List.isChain_singleton 0
  · rw [front_of_end h hp List.getLast?_concat]
    have hold : ((0 :: ys) ++ [b]).IsChain (fun i j => l.nextOf i = some j) :=
      (List.isChain_append.mp h.next_chain).1
    have hzero : (0 : Int) ∉ ys ++ [b] := fun hmem =>
      h.zero_notMem (List.mem_append_left _ hmem)
    exact chain_cut_last (List.nodup_cons.mpr ⟨hzero, (List.nodup_append.mp h.nodup).1⟩) hold

/-- The links backwards, of which the one from the head is set anew. -/
theorem previous_chain_end (h : l.Consistent (us ++ [t]) (xs ++ [e]))
    {previous : Int → Option Int} (hzero : ∀ b, xs.getLast? = some b → previous 0 = some b)
    (hkept : ∀ i ∈ xs, previous i = l.previousOf i) :
    (0 :: xs.reverse).IsChain (fun i j => previous i = some j) := by
  rcases xs.eq_nil_or_concat' with rfl | ⟨ys, b, rfl⟩
  · exact List.isChain_singleton 0
  · have hall := h.previous_chain.tail
    rw [List.reverse_append, List.reverse_singleton, List.singleton_append] at hall
    have hrest := hall.tail
    rw [List.reverse_append, List.reverse_singleton, List.singleton_append] at hrest ⊢
    refine List.isChain_cons_cons.mpr ⟨hzero b List.getLast?_concat, hrest.imp_of_mem_imp ?_⟩
    intro i j hi _ hlink
    rwa [hkept i (by simpa [or_comm] using hi)]

/-- The last element is removed as it should be. -/
theorem removeAt_end (h : l.Consistent (us ++ [t]) (xs ++ [e])) :
    ∃ l', l.removeAt (l.size - 1) = some l' ∧ l'.Consistent us xs := by
  obtain ⟨l', p, hrun, hp, hpos, hsize, hcapacity, hslot, hnext, hprevious, hdata⟩ :=
    removeAt_end_run h
  have hsize0 := h.size
  have hlength := h.length_slots
  simp only [List.length_append, List.length_singleton] at hsize0 hlength
  obtain ⟨hnd, -, hapart⟩ := List.nodup_append.mp h.nodup
  have hne (i : Int) (hi : i ∈ xs) : i ≠ e := hapart i hi e List.mem_cons_self
  have hin (i : Int) (hi : i ∈ xs) := h.inside i (List.mem_append_left _ hi)
  have hkept (i : Int) (hi : i ∈ xs) : l'.previousOf i = l.previousOf i := by
    have hpositive := (hin i hi).1
    rw [hprevious, update_of_ne (hne i hi), update_of_ne (by omega)]
  refine ⟨l', hrun, ?_, ?_, ?_, ?_, ?_⟩
  · refine .of_chains (by omega) (by omega) ?_ hnd ?_ (previous_chain_end h ?_ hkept) ?_ ?_
    · rw [hcapacity]
      exact hin
    · rw [hnext]
      exact next_chain_end h hp
    · intro b hb
      have hpositive := (hin b (List.mem_of_getLast? hb)).1
      have hfront := front_of_end h hp hb
      have he := h.inside e (List.mem_append_right _ List.mem_cons_self)
      rw [hprevious, update_of_ne (by omega), update_self, if_neg (by omega), hfront]
    · rw [hdata]
      have hall := h.data
      rw [List.map_append, List.map_append] at hall
      exact (List.append_inj' hall rfl).1
    · intro n hlow hhigh hout
      rw [hprevious]
      by_cases hn : (n : Int) = e
      · rw [hn, update_self]
      · rw [update_of_ne hn, update_of_ne (by omega)]
        exact h.free n hlow (hcapacity ▸ hhigh) (by simp [hout, hn])
  · exact hcapacity ▸ h.bounded
  · intro i
    rw [hslot, hcapacity, h.array]
  · intro i hi
    rw [hkept i (List.mem_of_head? hi), hcapacity]
    exact h.first i (by rw [List.head?_append, hi]; rfl)
  · intro b hb
    refine ⟨npos, by rw [hnext, front_of_end h hp hb, update_self], fun hmem => ?_⟩
    exact absurd (hin npos hmem).1 (by decide)

end Last

end One

/-! ## Ranges -/

section Range

variable {pos len : UInt32} {index pre next : Int}

/-- Where the next link behind the range is set. -/
def target (next : Int) : Int := if next = npos then 0 else next

/-- A range that reaches the end clears the list. -/
theorem removeRange_clears (h : l.Consistent ts slots) (hpos : pos.toNat < slots.length)
    (hone : len ≠ 1) (hend : slots.length ≤ (pos + len).toNat) :
    l.removeRange pos len = some construct := by
  have hsize := h.size.trans h.length_slots.symm
  have hbound := h.length_lt
  have hfind := h.findNodeIndex hpos
  rw [List.getElem?_eq_getElem hpos] at hfind
  rw [removeRange, if_neg (by omega), if_neg hone, if_pos (by omega)]
  simp only [hfind, Option.bind_eq_bind, Option.bind_some, Option.pure_def]
  rw [if_pos (by omega), clear]

/-- What the removal of a range further inside has done. -/
theorem removeRange_inner (h : l.Consistent ts slots) (hpos : pos.toNat < slots.length)
    (hone : len ≠ 1) (hend : (pos + len).toNat < slots.length)
    (hrun : l.removeRange pos len = some l') :
    ∃ endIndex pre next l2 size, walk l.nextOf len.toNat slots[pos.toNat] = some endIndex ∧
      l.previousOf slots[pos.toNat] = some pre ∧ l.nextOf endIndex = some next ∧
      Relinked l l2 pre next (target next) ∧
      size = (slots.length + 2 ^ 32 - len.toNat) % 2 ^ 32 ∧
      freeNodes len.toNat slots[pos.toNat] { l2 with size := size } = some l' := by
  have hsize := h.size.trans h.length_slots.symm
  have hfind := h.findNodeIndex hpos
  rw [List.getElem?_eq_getElem hpos] at hfind
  have hsum := hend
  rw [UInt32.toNat_add] at hsum
  rw [removeRange, if_neg (by omega), if_neg hone, if_neg (by omega)] at hrun
  simp only [hfind, Option.bind_eq_bind, Option.bind_some, Option.pure_def] at hrun
  rw [if_neg (by omega)] at hrun
  obtain ⟨endIndex, hwalk, hrun⟩ := Option.bind_eq_some_iff.mp hrun
  obtain ⟨pre, hpre, hrun⟩ := Option.bind_eq_some_iff.mp hrun
  obtain ⟨next, hnext, hrun⟩ := Option.bind_eq_some_iff.mp hrun
  obtain ⟨l1, h1, hrun⟩ := Option.bind_eq_some_iff.mp hrun
  obtain ⟨l2, h2, hrun⟩ := Option.bind_eq_some_iff.mp hrun
  have hboth : l1.modify (target next) (fun node => { node with previous := pre }) = some l2 := by
    rw [target]
    split at h2
    · rename_i hnone
      rwa [if_pos hnone]
    · rename_i hsome
      rwa [if_neg hsome]
  have r := relinked_of_some h1 hboth
  rw [r.shape.size, hsize] at hrun
  exact ⟨endIndex, pre, next, l2, _, hwalk, hpre, hnext, r, rfl, hrun⟩

/-- The walk to the end of a range that does not reach the end of the list. -/
theorem walk_range (h : l.Consistent ts slots) {m n : Nat} (hin : m + n < slots.length) :
    walk l.nextOf n slots[m] = some slots[m + n] := by
  have hall := walk_chain (m + 1 + n) h.next_chain (by omega)
  have hstart := walk_chain (m + 1) h.next_chain (by omega)
  rw [Nat.add_right_comm, List.getElem?_cons_succ, List.getElem?_eq_getElem hin] at hall
  rw [List.getElem?_cons_succ, List.getElem?_eq_getElem (by omega)] at hstart
  rw [Nat.add_right_comm, walk_add, hstart, Option.bind_some] at hall
  exact hall

/-- What stands at the place of the range, and in front of it, when the range is gone. -/
theorem getElem?_cut (xs : List Int) {m n : Nat} (hin : m + n < xs.length) :
    (cut m n xs)[m]? = xs[m + n]? ∧ (0 :: cut m n xs)[m]? = (0 :: xs)[m]? := by
  have hlength : (xs.take m).length = m := List.length_take_of_le (by omega)
  constructor
  · rw [cut, List.getElem?_append_right (by omega), hlength, Nat.sub_self, List.getElem?_drop,
      Nat.add_zero]
  · cases m with
    | zero => rfl
    | succ m =>
        rw [List.getElem?_cons_succ, List.getElem?_cons_succ, cut,
          List.getElem?_append_left (by omega), List.getElem?_take_of_lt (Nat.lt_succ_self m)]

/-- A range further inside leaves the links right only if it is empty and at the start. -/
theorem removeRange_inner_fails (h : l.Consistent ts slots)
    (hin : pos.toNat + len.toNat < slots.length) (hone : len ≠ 1)
    (hrun : l.removeRange pos len = some l') {us : List T}
    (hholds : l'.Holds us (cut pos.toNat len.toNat slots)) :
    pos.toNat = 0 ∧ len.toNat = 0 := by
  have hbound := h.length_lt
  have hpos : pos.toNat < slots.length := by omega
  have hend : (pos + len).toNat < slots.length := by
    rw [UInt32.toNat_add]
    omega
  obtain ⟨endIndex, pre, next, l2, size, hwalk, hpre, hnext, r, -, hfree⟩ :=
    removeRange_inner h hpos hone hend hrun
  rw [walk_range h hin, Option.some_inj] at hwalk
  subst hwalk
  have hlinks := (freeNodes_links hfree).2
  obtain ⟨hcut, hfront⟩ := getElem?_cut slots hin
  rw [List.getElem?_eq_getElem hin] at hcut
  -- the element in front of the range has to be linked to the one behind it
  obtain ⟨a, ha⟩ : ∃ a, (0 :: slots)[pos.toNat]? = some a :=
    ⟨_, List.getElem?_eq_getElem (by rw [List.length_cons]; omega)⟩
  have hlink := hholds.nextOf_getElem (hfront.trans ha) hcut
  obtain ⟨hpositive, -⟩ := h.inside slots[pos.toNat + len.toNat] (List.getElem_mem hin)
  have hlink2 : l2.nextOf a = some slots[pos.toNat + len.toNat] := by
    rcases hlinks a with heq | hnone
    · exact heq.symm.trans hlink
    · rw [hlink, Option.some_inj, npos] at hnone
      omega
  rw [r.nextOf] at hlink2
  obtain ⟨q, hq, hne⟩ := h.next_exists (List.getElem?_eq_getElem hin)
  have hapre : a ≠ pre := by
    rintro rfl
    rw [update_self, ← hnext, hq, Option.some_inj] at hlink2
    exact hne hlink2
  rw [update_of_ne hapre, h.nextOf_getElem ha (List.getElem?_eq_getElem hpos), Option.some_inj,
    h.nodup.getElem_inj_iff] at hlink2
  refine ⟨?_, by omega⟩
  by_contra hsome
  obtain ⟨k, hk⟩ : ∃ k, pos.toNat = k + 1 := Nat.exists_eq_succ_of_ne_zero hsome
  rw [hk, List.getElem?_cons_succ] at ha
  have hi : slots[k + 1]? = some slots[pos.toNat] := by
    rw [← hk]
    exact List.getElem?_eq_getElem hpos
  have hprevious := h.previousOf_getElem ha hi
  rw [hpre, Option.some_inj] at hprevious
  exact hapre hprevious.symm

/-- A range whose sum wraps would have to leave a list of another size. -/
theorem removeRange_wraps (h : l.Consistent ts slots) (hpos : pos.toNat < slots.length)
    (hwrap : 2 ^ 32 ≤ pos.toNat + len.toNat) (hrun : l.removeRange pos len = some l') :
    l'.size ≠ pos.toNat := by
  have hbound := h.length_lt
  have hlen := len.toNat_lt
  have hend : (pos + len).toNat < slots.length := by
    rw [UInt32.toNat_add]
    omega
  have hone : len ≠ 1 := by
    rintro rfl
    rw [show (1 : UInt32).toNat = 1 from rfl] at hwrap
    omega
  obtain ⟨endIndex, pre, next, l2, size, -, -, -, -, hleft, hfree⟩ :=
    removeRange_inner h hpos hone hend hrun
  have hsize : l'.size = size := (freeNodes_links hfree).1
  omega

/-- Where the link that `next` asks for is set, at the start of a list that is as `append`
leaves it: the element behind the first one, or the head. -/
theorem previousOf_target (h : l.Consistent ts slots) (hsome : 0 < slots.length)
    (hnext : l.nextOf slots[0] = some next)
    (hbehind : 2 ≤ slots.length ∨ next = npos ∨ next = 0) :
    l.previousOf (target next) = some slots[0] := by
  have hi := List.getElem?_eq_getElem hsome
  by_cases htwo : 2 ≤ slots.length
  · have hj := List.getElem?_eq_getElem htwo
    have hlink := h.nextOf_getElem (k := 1) hi hj
    rw [hnext, Option.some_inj] at hlink
    have hpositive := (h.inside slots[1] (List.getElem_mem htwo)).1
    rw [target, if_neg (by rw [npos]; omega), hlink]
    exact h.previousOf_getElem hi hj
  · have hzero : target next = 0 := by
      rcases hbehind.resolve_left htwo with rfl | rfl <;> rfl
    rw [hzero]
    refine h.previousOf_zero ?_
    rw [List.getLast?_eq_getElem?, show slots.length - 1 = 0 by omega]
    exact hi

/-- A link back that is set behind the only element leads it out of the list: its slot is to
stay free, and would not be. -/
theorem behind_of_relinked {l2 : StaticList T} {size : Nat} (h : l.Consistent ts slots)
    (hsome : 0 < slots.length) (hnext : l.nextOf slots[0] = some next)
    (hpre : l.previousOf slots[0] = some pre) (r : Relinked l l2 pre next (target next))
    (h2 : { l2 with size := size }.Holds ts slots) :
    2 ≤ slots.length ∨ next = npos ∨ next = 0 := by
  by_contra hbehind
  rw [not_or, not_or] at hbehind
  obtain ⟨hone, hnone, hzero⟩ := hbehind
  have hi := List.getElem?_eq_getElem hsome
  have htarget : target next = next := if_neg hnone
  obtain ⟨q, hq, hout⟩ := h.last slots[0] (by
    rw [List.getLast?_eq_getElem?, show slots.length - 1 = 0 by omega]
    exact hi)
  rw [hnext, Option.some_inj] at hq
  subst hq
  obtain ⟨hlow, hhigh⟩ := (h.array _).mp r.slots.2
  have hset : l2.previousOf (target next) = some pre := by rw [r.previousOf, update_self]
  rw [htarget] at hlow hhigh hset
  have hcast : ((next.toNat : Nat) : Int) = next := Int.toNat_of_nonneg hlow
  have hcapacity : l2.capacity = l.capacity := r.shape.capacity
  have hfree : l2.previousOf (next.toNat : Int) = some npos :=
    h2.free next.toNat (by omega) (show next.toNat < l2.capacity by omega) (by rwa [hcast])
  rw [hcast, hset, Option.some_inj] at hfree
  obtain ⟨p, hp, -⟩ := h.previous_exists hi
  rw [hpre, Option.some_inj, hfree, npos] at hp
  omega

/-- The empty range at the start, where nothing has changed behind it. -/
theorem removeRange_empty_wrong (h : l.Consistent ts slots) (hsome : 0 < slots.length)
    (hrun : l.removeRange 0 0 = some l') (h' : l'.Consistent ts slots) :
    l.previousOf slots[0] = some slots[0] ∧
      (2 ≤ slots.length ∨ l.nextOf slots[0] = some npos ∨ l.nextOf slots[0] = some 0) := by
  obtain ⟨endIndex, pre, next, l2, size, hwalk, hpre, hnext, r, -, hfree⟩ :=
    removeRange_inner h (show (0 : UInt32).toNat < slots.length from hsome) (by decide)
      (show (0 + 0 : UInt32).toNat < slots.length from hsome) hrun
  cases hwalk
  cases hfree
  have hpre' : l.previousOf slots[0] = some pre := hpre
  have hnext' : l.nextOf slots[0] = some next := hnext
  have hset : l2.previousOf (target next) = some pre := by
    rw [r.previousOf, update_self]
  have hlink : l2.nextOf slots[0] = some next := by
    rw [r.nextOf]
    by_cases hsame : slots[0] = pre
    · rw [hsame, update_self]
    · rw [update_of_ne hsame, hnext']
  rw [hpre', hnext', Option.some_inj, Option.some_inj, Option.some_inj]
  have hbehind := behind_of_relinked h hsome hnext' hpre' r h'.toHolds
  have hback := previousOf_target h' hsome hlink hbehind
  exact ⟨Option.some_inj.mp (hset.symm.trans hback), hbehind⟩

/-- There the links that are set are those that are there. -/
theorem removeRange_empty_right (h : l.Consistent ts slots) (hsome : 0 < slots.length)
    (hself : l.previousOf slots[0] = some slots[0])
    (hbehind : 2 ≤ slots.length ∨ l.nextOf slots[0] = some npos ∨ l.nextOf slots[0] = some 0) :
    ∃ l', l.removeRange 0 0 = some l' ∧ l'.Consistent ts slots := by
  have hbound := h.length_lt
  have hsize := h.size.trans h.length_slots.symm
  have hi := List.getElem?_eq_getElem hsome
  obtain ⟨next, hnext, -⟩ := h.next_exists hi
  rw [hnext, Option.some_inj, Option.some_inj] at hbehind
  have hback := previousOf_target h hsome hnext hbehind
  have hcell : (l.slot slots[0]).isSome := by
    have hin := h.inside slots[0] (List.getElem_mem hsome)
    exact (h.array _).mpr ⟨by omega, hin.2⟩
  obtain ⟨l1, h1, w1⟩ := modify_spec hcell (fun node => { node with next := next })
  have htarget : (l1.slot (target next)).isSome := by
    obtain ⟨x, hx, -⟩ := Option.map_eq_some_iff.mp hback
    rw [w1.isSome, hx]
    rfl
  obtain ⟨l2, h2, w2⟩ := modify_spec htarget (fun node => { node with previous := slots[0] })
  have r := relinked_of_some h1 h2
  have hboth : (if next = npos then l1.modify 0 fun node => { node with previous := slots[0] }
      else l1.modify next fun node => { node with previous := slots[0] }) = some l2 := by
    rw [← h2, target]
    split <;> rfl
  refine ⟨l2, ?_, h.congr r.shape ?_ ?_ r.dataOf⟩
  · have hfind := h.findNodeIndex hsome
    have hcount : (l2.size + 2 ^ 32 - 0) % 2 ^ 32 = l2.size := by
      rw [r.shape.size]
      omega
    have hstart : ¬ (0 : UInt32).toNat ≥ l.size := by
      rw [UInt32.toNat_zero]
      omega
    rw [removeRange, if_neg hstart, if_neg (by decide), UInt32.add_zero, if_neg hstart]
    simp only [UInt32.toNat_zero, hfind, hi, hself, hnext, h1, hboth, walk, Option.bind_eq_bind,
      Option.bind_some, hcount, freeNodes]
    rw [if_neg (by omega)]
  · rw [r.nextOf, ← hnext, update_eq_self]
  · rw [r.previousOf, ← hback, update_eq_self]

/-- The empty range at the start: nothing changes if the first element names itself, and
the last one leads nowhere or back to the head. -/
theorem removeRange_empty_iff (h : l.Consistent ts slots) (hsome : 0 < slots.length) :
    (∃ l', l.removeRange 0 0 = some l' ∧ l'.Consistent ts slots) ↔
      l.previousOf slots[0] = some slots[0] ∧
        (2 ≤ slots.length ∨ l.nextOf slots[0] = some npos ∨ l.nextOf slots[0] = some 0) :=
  ⟨fun ⟨_, hrun, h'⟩ => removeRange_empty_wrong h hsome hrun h',
    fun ⟨hself, hbehind⟩ => removeRange_empty_right h hsome hself hbehind⟩

/-- The inputs on which `removeAt(uint, uint)` does what it is for: a range behind the end,
the last element alone, a range from the start to the end or beyond it, or an empty range
at the start of a list in which the first element names itself and the last one leads
nowhere or back to the head. -/
def RangeRight (l : StaticList T) (slots : List Int) (pos len : Nat) : Prop :=
  slots.length ≤ pos ∨ (len = 1 ∧ pos + 1 = slots.length) ∨
    (pos = 0 ∧ len ≠ 1 ∧ slots.length ≤ len) ∨
    (pos = 0 ∧ len = 0 ∧ ∃ i, slots.head? = some i ∧ l.previousOf i = some i ∧
      (2 ≤ slots.length ∨ l.nextOf i = some npos ∨ l.nextOf i = some 0))

theorem cut_behind {α : Type} {xs : List α} {m : Nat} (n : Nat) (hbehind : xs.length ≤ m) :
    cut m n xs = xs := by
  rw [cut, List.take_of_length_le hbehind, List.drop_of_length_le (by omega), List.append_nil]

theorem cut_all {α : Type} {xs : List α} {n : Nat} (hall : xs.length ≤ n) : cut 0 n xs = [] := by
  rw [cut, List.take_zero, List.nil_append, Nat.zero_add, List.drop_of_length_le hall]

theorem cut_end {α : Type} (xs : List α) (e : α) : cut xs.length 1 (xs ++ [e]) = xs := by
  rw [cut, List.take_left, List.drop_of_length_le (by rw [List.length_append]; exact le_refl _),
    List.append_nil]

theorem length_cut {α : Type} {xs : List α} {m n : Nat} (hle : m ≤ xs.length) :
    (cut m n xs).length = m + (xs.length - (m + n)) := by
  rw [cut, List.length_append, List.length_take_of_le hle, List.length_drop]

/-- The last element alone. -/
theorem removeRange_last (h : l.Consistent ts slots) (hlast : pos.toNat + 1 = slots.length) :
    ∃ l', l.removeRange pos 1 = some l' ∧
      l'.Consistent (cut pos.toNat 1 ts) (cut pos.toNat 1 slots) := by
  have hsize := h.size.trans h.length_slots.symm
  have hlength := h.length_slots
  rcases slots.eq_nil_or_concat' with rfl | ⟨xs, e, rfl⟩
  · cases hlast
  rcases ts.eq_nil_or_concat' with rfl | ⟨us, t, rfl⟩
  · cases hlength.symm.trans (List.length_append.trans rfl)
  rw [List.length_append, List.length_singleton] at hlast hsize
  rw [List.length_append, List.length_append, List.length_singleton,
    List.length_singleton] at hlength
  obtain ⟨l', hrun, h'⟩ := removeAt_end h
  refine ⟨l', ?_, ?_⟩
  · rw [removeRange, if_neg (by omega), if_pos rfl, show pos.toNat = l.size - 1 by omega, hrun]
  · rw [show pos.toNat = xs.length by omega, cut_end, show xs.length = us.length by omega, cut_end]
    exact h'

/-- The inputs are right. -/
theorem removeRange_right (h : l.Consistent ts slots)
    (hright : RangeRight l slots pos.toNat len.toNat) :
    ∃ l', l.removeRange pos len = some l' ∧
      l'.Consistent (cut pos.toNat len.toNat ts) (cut pos.toNat len.toNat slots) := by
  have hsize := h.size.trans h.length_slots.symm
  have hlength := h.length_slots
  by_cases hpos : slots.length ≤ pos.toNat
  · refine ⟨l, ?_, ?_⟩
    · rw [removeRange, if_pos (by omega)]
      rfl
    · rwa [cut_behind _ hpos, cut_behind _ (by omega)]
  rw [Nat.not_le] at hpos
  rcases hright with hbehind | ⟨hone, hlast⟩ | ⟨hstart, hne, hall⟩ |
    ⟨hstart, hempty, i, hi, hself, hbehind⟩
  · omega
  · obtain rfl : len = 1 := UInt32.toNat_inj.mp hone
    exact removeRange_last h hlast
  · refine ⟨construct, removeRange_clears h hpos (fun heq => hne (heq ▸ rfl)) ?_, ?_⟩
    · have hlen := len.toNat_lt
      rw [UInt32.toNat_add]
      omega
    · rw [hstart, cut_all hall, cut_all (by omega)]
      exact construct_consistent
  · obtain rfl : pos = 0 := UInt32.toNat_inj.mp hstart
    obtain rfl : len = 0 := UInt32.toNat_inj.mp hempty
    have hsome : 0 < slots.length := hpos
    rw [List.head?_eq_getElem?, List.getElem?_eq_getElem hsome] at hi
    cases hi
    exact (removeRange_empty_iff h hsome).mpr ⟨hself, hbehind⟩

/-- Otherwise the list is not what it should be. -/
theorem removeRange_wrong (h : l.Consistent ts slots) (hrun : l.removeRange pos len = some l')
    (h' : l'.Consistent (cut pos.toNat len.toNat ts) (cut pos.toNat len.toNat slots)) :
    RangeRight l slots pos.toNat len.toNat := by
  have hsize := h.size.trans h.length_slots.symm
  have hlength := h.length_slots
  have hbound := h.length_lt
  by_cases hpos : slots.length ≤ pos.toNat
  · exact .inl hpos
  rw [Nat.not_le] at hpos
  have hleft := h'.size
  rw [length_cut (by omega)] at hleft
  by_cases hone : len = 1
  · subst hone
    by_cases hlast : pos.toNat + 1 = slots.length
    · exact .inr (.inl ⟨rfl, hlast⟩)
    · rw [removeRange, if_neg (by omega), if_pos rfl] at hrun
      exact absurd h'.toHolds (removeAt_inner_fails h (by omega) hrun)
  have hone' : len.toNat ≠ 1 := fun heq => hone (UInt32.toNat_inj.mp heq)
  by_cases hend : slots.length ≤ (pos + len).toNat
  · -- the whole list is gone
    rw [removeRange_clears h hpos hone hend] at hrun
    cases hrun
    have hnone : (construct : StaticList T).size = 0 := rfl
    rw [UInt32.toNat_add] at hend
    have hlen := len.toNat_lt
    exact .inr (.inr (.inl ⟨by omega, hone', by omega⟩))
  rw [UInt32.toNat_add] at hend
  by_cases hwrap : 2 ^ 32 ≤ pos.toNat + len.toNat
  · exact absurd (by omega) (removeRange_wraps h hpos hwrap hrun)
  · obtain ⟨hstart, hempty⟩ := removeRange_inner_fails h (by omega) hone hrun h'.toHolds
    obtain rfl : pos = 0 := UInt32.toNat_inj.mp hstart
    obtain rfl : len = 0 := UInt32.toNat_inj.mp hempty
    have hsome : 0 < slots.length := hpos
    obtain ⟨hself, hbehind⟩ := (removeRange_empty_iff h hsome).mp ⟨l', hrun, h'⟩
    refine .inr (.inr (.inr ⟨rfl, rfl, slots[0], ?_, hself, hbehind⟩))
    rw [List.head?_eq_getElem?, List.getElem?_eq_getElem hsome]

end Range

/-- **Removing a range.** From every consistent list `removeAt(uint, uint)` leaves the
elements in front of the range and behind it, in their slots, with their links, and the
slots of the range free, exactly on the inputs named in `RangeRight`. -/
theorem removeRange_iff (h : l.Consistent ts slots) (pos len : UInt32) :
    (∃ l', l.removeRange pos len = some l' ∧
        l'.Consistent (cut pos.toNat len.toNat ts) (cut pos.toNat len.toNat slots)) ↔
      RangeRight l slots pos.toNat len.toNat := by
  constructor
  · rintro ⟨l', hrun, h'⟩
    exact removeRange_wrong h hrun h'
  · exact removeRange_right h

/-- Three appends make a list that is consistent. -/
theorem three_consistent : ∃ l : StaticList Nat,
    appendAll .release [1, 2, 3] = some (l, [1, 2, 3]) ∧ l.Consistent [1, 2, 3] [1, 2, 3] := by
  obtain ⟨l, hrun, p⟩ := appendAll_packed .release [1, 2, 3] (by decide)
  have hcells : (appendAll .release [1, 2, 3]).map (fun r => r.1.head.length) = some 10 := rfl
  have hlink : (appendAll .release [1, 2, 3]).bind (fun r => r.1.nextOf 3) = some npos := rfl
  rw [hrun, Option.map_some, Option.some_inj] at hcells
  rw [hrun, Option.bind_some] at hlink
  refine ⟨l, hrun, p.holds, ?_, array_of_length (hcells.trans p.capacity.symm), ?_, ?_⟩
  · rw [p.capacity]
    decide
  · rintro i ⟨⟩
    exact ⟨1, p.first (by decide), by rw [p.capacity]; decide⟩
  · rintro i ⟨⟩
    exact ⟨npos, hlink, by decide⟩

theorem removeRange_iff_three : ∃ l : StaticList Nat, l.Consistent [1, 2, 3] [1, 2, 3] ∧
    ((∃ l', l.removeRange 0 7 = some l' ∧
        l'.Consistent (cut 0 7 [1, 2, 3]) (cut 0 7 [1, 2, 3])) ↔
      RangeRight l [1, 2, 3] 0 7) := by
  obtain ⟨l, -, h⟩ := three_consistent
  exact ⟨l, h, removeRange_iff h 0 7⟩

/-- The removal of the last two of three elements clears the list. -/
theorem removeRange_loses_front : ∃ l : StaticList Nat, l.Consistent [1, 2, 3] [1, 2, 3] ∧
    ¬ ∃ l', l.removeRange 1 2 = some l' ∧
      l'.Consistent (cut 1 2 [1, 2, 3]) (cut 1 2 [1, 2, 3]) := by
  obtain ⟨l, -, h⟩ := three_consistent
  refine ⟨l, h, ?_⟩
  rintro ⟨l', hrun, h'⟩
  rw [removeRange_clears h (by decide) (by decide) (by decide)] at hrun
  cases hrun
  exact absurd h'.size (by decide)

end LearnSpace.DataStructure.StaticList
