import LearnSpace.DataStructure.StaticList

/-!
# Appending to the list in an array

As long as only the end of a list is touched its elements are in the slots 1, 2, … in
order, and the slots behind them are free (`Packed`). The first element names its own slot
as the previous one, which is what keeps that slot from being taken for a free one.

Nine elements fit. The test for growth comes after the tenth one was to be placed, and
that one finds no free slot.
-/

namespace LearnSpace.DataStructure.StaticList

open Function

variable {T : Type} {l l' : StaticList T} {ts : List T} {i : Int} {x : Slot T}

/-! ## Writes -/

theorem slot_natCast (l : StaticList T) (n : Nat) : l.slot n = l.head[n]? := by
  rw [slot, if_neg (by omega), Int.toNat_natCast]

/-- A write concerns one node and neither of the sizes. -/
structure Writes (l l' : StaticList T) (i : Int) (f : Slot T → Slot T) : Prop where
  size : l'.size = l.size
  capacity : l'.capacity = l.capacity
  slot : l'.slot = update l.slot i ((l.slot i).map f)

theorem modify_spec (hi : (l.slot i).isSome) (f : Slot T → Slot T) :
    ∃ l', l.modify i f = some l' ∧ Writes l l' i f := by
  obtain ⟨x, hx⟩ := Option.isSome_iff_exists.mp hi
  refine ⟨{ l with head := l.head.modify i.toNat f }, ?_, rfl, rfl, ?_⟩
  · rw [modify, hx]
    rfl
  · have hpos : ¬ i < 0 := by
      intro hneg
      rw [slot, if_pos hneg] at hx
      cases hx
    funext j
    by_cases hj : j < 0
    · rw [update_of_ne (by omega), slot, slot, if_pos hj, if_pos hj]
    · by_cases hij : j = i
      · rw [hij, update_self, slot, slot, if_neg hpos, if_neg hpos]
        exact List.getElem?_modify_eq f i.toNat l.head
      · rw [update_of_ne hij, slot, slot, if_neg hj, if_neg hj]
        exact List.getElem?_modify_ne f _ (by omega)

theorem modify_none (hi : l.slot i = none) (f : Slot T → Slot T) : l.modify i f = none := by
  rw [modify, hi]
  rfl

namespace Writes

variable {f : Slot T → Slot T} {v : Int}

theorem isSome (w : Writes l l' i f) (j : Int) : (l'.slot j).isSome = (l.slot j).isSome := by
  rw [w.slot]
  by_cases hj : j = i
  · rw [hj, update_self, Option.isSome_map]
  · rw [update_of_ne hj]

/-- What a write does to a field. -/
theorem field {β : Type} (w : Writes l l' i f) (proj : Slot T → β) :
    (fun j => (l'.slot j).map proj) =
      update (fun j => (l.slot j).map proj) i ((l.slot i).map (proj ∘ f)) := by
  funext j
  by_cases hj : j = i
  · rw [hj, update_self, w.slot, update_self, Option.map_map]
  · rw [update_of_ne hj, w.slot, update_of_ne hj]

theorem nextOf (w : Writes l l' i f) (hi : (l.slot i).isSome) (hf : ∀ x, (f x).next = v) :
    l'.nextOf = update l.nextOf i (some v) := by
  obtain ⟨x, hx⟩ := Option.isSome_iff_exists.mp hi
  have h := w.field Slot.next
  rw [hx, Option.map_some, comp_apply, hf x] at h
  exact h

theorem nextOf_keep (w : Writes l l' i f) (hf : ∀ x, (f x).next = x.next) :
    l'.nextOf = l.nextOf := by
  have h := w.field Slot.next
  rw [show Slot.next ∘ f = Slot.next from funext hf, update_eq_self] at h
  exact h

theorem previousOf (w : Writes l l' i f) (hi : (l.slot i).isSome)
    (hf : ∀ x, (f x).previous = v) : l'.previousOf = update l.previousOf i (some v) := by
  obtain ⟨x, hx⟩ := Option.isSome_iff_exists.mp hi
  have h := w.field Slot.previous
  rw [hx, Option.map_some, comp_apply, hf x] at h
  exact h

theorem previousOf_keep (w : Writes l l' i f) (hf : ∀ x, (f x).previous = x.previous) :
    l'.previousOf = l.previousOf := by
  have h := w.field Slot.previous
  rw [show Slot.previous ∘ f = Slot.previous from funext hf, update_eq_self] at h
  exact h

theorem dataOf {t : T} (w : Writes l l' i f) (hi : (l.slot i).isSome)
    (hf : ∀ x, (f x).data = some t) : l'.dataOf = update l.dataOf i (some t) := by
  obtain ⟨x, hx⟩ := Option.isSome_iff_exists.mp hi
  funext j
  by_cases hj : j = i
  · rw [hj, update_self, StaticList.dataOf, w.slot, update_self, hx, Option.map_some,
      Option.bind_some, hf]
  · rw [update_of_ne hj, StaticList.dataOf, w.slot, update_of_ne hj, StaticList.dataOf]

theorem dataOf_keep (w : Writes l l' i f) (hf : ∀ x, (f x).data = x.data) :
    l'.dataOf = l.dataOf := by
  funext j
  by_cases hj : j = i
  · rw [hj, StaticList.dataOf, w.slot, update_self, StaticList.dataOf]
    cases l.slot i with
    | none => rfl
    | some x => exact hf x
  · rw [StaticList.dataOf, w.slot, update_of_ne hj, StaticList.dataOf]

end Writes

/-- Writes keep the slots of the array and the two sizes. -/
structure SameShape (l l' : StaticList T) : Prop where
  size : l'.size = l.size
  capacity : l'.capacity = l.capacity
  isSome : ∀ j, (l'.slot j).isSome = (l.slot j).isSome

theorem Writes.shape {f : Slot T → Slot T} (w : Writes l l' i f) : SameShape l l' :=
  ⟨w.size, w.capacity, w.isSome⟩

/-- One more write. -/
theorem SameShape.write {l'' : StaticList T} {f : Slot T → Slot T} (s : SameShape l l')
    (w : Writes l' l'' i f) : SameShape l l'' :=
  ⟨w.size.trans s.size, w.capacity.trans s.capacity, fun j => (w.isSome j).trans (s.isSome j)⟩

/-! ## Packed lists -/

/-- The elements are in the slots from 1 on, in order, and the slots behind them are free.
There are no more than nine, so the array is the first one. -/
structure Packed (l : StaticList T) (ts : List T) : Prop where
  capacity : l.capacity = 10
  size : l.size = ts.length
  fits : ts.length ≤ 9
  cells : ∀ n : Nat, n < 10 → (l.slot n).isSome
  next : ∀ n : Nat, n < ts.length → l.nextOf n = some ((n + 1 : Nat) : Int)
  last : 0 < ts.length → l.previousOf 0 = some (ts.length : Int)
  previous : ∀ n : Nat, 0 < n → n < ts.length → l.previousOf (n + 1 : Nat) = some (n : Int)
  first : 0 < ts.length → l.previousOf 1 = some 1
  data : ∀ n : Nat, n < ts.length → l.dataOf (n + 1 : Nat) = ts[n]?
  free : ∀ n : Nat, ts.length < n → n < 10 → l.previousOf n = some npos

theorem construct_slot {n : Nat} (hn : n < 10) :
    (construct : StaticList T).slot n = some newSlot := by
  rw [slot_natCast]
  exact List.getElem?_replicate_of_lt hn

theorem construct_packed : Packed (construct : StaticList T) [] where
  capacity := rfl
  size := rfl
  fits := Nat.zero_le _
  cells n hn := by
    rw [construct_slot hn]
    rfl
  next n hn := absurd hn (Nat.not_lt_zero n)
  last h := absurd h (Nat.lt_irrefl 0)
  previous n _ hn := absurd hn (Nat.not_lt_zero n)
  first h := absurd h (Nat.lt_irrefl 0)
  data n hn := absurd hn (Nat.not_lt_zero n)
  free n _ hn := by
    rw [previousOf, construct_slot hn]
    rfl

namespace Packed

/-- The slots of the elements are not free. -/
theorem occupied (p : Packed l ts) {n : Nat} (hn : 0 < n) (hin : n ≤ ts.length) :
    l.previousOf n ≠ some npos := by
  intro hfree
  rcases Nat.eq_or_lt_of_le (Nat.succ_le_of_lt hn) with rfl | hlt
  · have hself := p.first (by omega)
    rw [show ((1 : Nat) : Int) = 1 from rfl, hself] at hfree
    cases hfree
  · obtain ⟨m, rfl⟩ : ∃ m, n = m + 1 := ⟨n - 1, by omega⟩
    rw [p.previous m (by omega) (by omega), Option.some_inj] at hfree
    simp only [npos] at hfree
    omega

/-- The next element gets the slot behind the last one. -/
theorem getFreeIndex (p : Packed l ts) (hroom : ts.length < 9) :
    l.getFreeIndex = ((ts.length + 1 : Nat) : Int) := by
  have hsplit : List.range' 1 9 =
      List.range' 1 ts.length ++ (ts.length + 1) :: List.range' (ts.length + 2) (8 - ts.length) := by
    have htail : (ts.length + 1) :: List.range' (ts.length + 2) (8 - ts.length) =
        List.range' (1 + ts.length) (9 - ts.length) := by
      rw [show 9 - ts.length = 8 - ts.length + 1 by omega, Nat.add_comm 1, List.range'_succ]
    rw [htail, List.range'_append_1]
    congr 1
    omega
  have hfind : (List.range' 1 9).find? (fun n : Nat => l.previousOf n = some npos) =
      some (ts.length + 1) := by
    rw [List.find?_eq_some_iff_append]
    refine ⟨decide_eq_true (p.free _ (by omega) (by omega)), _, _, hsplit, ?_⟩
    intro n hn
    rw [List.mem_range'_1] at hn
    rw [Bool.not_eq_true', decide_eq_false_iff_not]
    exact p.occupied (by omega) (by omega)
  rw [StaticList.getFreeIndex, p.capacity]
  simp only [Nat.reduceSub, hfind]

/-- Nine elements leave no slot free. -/
theorem getFreeIndex_full (p : Packed l ts) (hfull : ts.length = 9) : l.getFreeIndex = npos := by
  have hfind : (List.range' 1 9).find? (fun n : Nat => l.previousOf n = some npos) = none := by
    rw [List.find?_eq_none]
    intro n hn
    rw [List.mem_range'_1] at hn
    rw [decide_eq_true_iff]
    exact p.occupied (by omega) (by omega)
  rw [StaticList.getFreeIndex, p.capacity]
  simp only [Nat.reduceSub, hfind]

/-! ## Appending -/

theorem not_stops (p : Packed l ts) (build : Build) : ¬ build.Stops (l.capacity ≤ maxSize) := by
  rintro ⟨-, hviolated⟩
  rw [p.capacity] at hviolated
  exact hviolated (by decide)

/-- The size counts up to nine without growth. -/
theorem countUp_small (hcapacity : l.capacity = 10) (hsize : l.size < 9) :
    l.countUp = some { l with size := l.size + 1 } := by
  rw [countUp, if_neg]
  show ¬ l.size + 1 ≥ l.capacity
  omega

/-- What one more element behind the others changes: the link from the last one, the slot of the
new one, and the back link of the head. -/
theorem extend (p : Packed l ts) (hsome : 0 < ts.length) (hroom : ts.length < 9) {t : T}
    (hcapacity : l'.capacity = l.capacity) (hsize : l'.size = l.size + 1)
    (hcells : ∀ j, (l'.slot j).isSome = (l.slot j).isSome)
    (hnext : l'.nextOf = update l.nextOf ts.length (some ((ts.length + 1 : Nat) : Int)))
    (hprevious : l'.previousOf = update (update l.previousOf (ts.length + 1 : Nat)
      (some (ts.length : Int))) 0 (some ((ts.length + 1 : Nat) : Int)))
    (hdata : l'.dataOf = update l.dataOf (ts.length + 1 : Nat) (some t)) :
    Packed l' (ts ++ [t]) := by
  have hlength : (ts ++ [t]).length = ts.length + 1 := List.length_append
  refine ⟨hcapacity.trans p.capacity, ?_, ?_, ?_, ?_, ?_, ?_, ?_, ?_, ?_⟩
  · rw [hsize, p.size, hlength]
  · omega
  · intro n hn
    rw [hcells]
    exact p.cells n hn
  · intro n hn
    by_cases hlast : n = ts.length
    · rw [hnext, hlast, update_self]
    · rw [hnext, update_of_ne (by omega), p.next n (by omega)]
  · intro _
    rw [hprevious, update_self, hlength]
  · intro n hn hlt
    rw [hprevious, update_of_ne (by omega)]
    by_cases hlast : n = ts.length
    · rw [hlast, update_self]
    · rw [update_of_ne (by omega), p.previous n hn (by omega)]
  · intro _
    rw [hprevious, update_of_ne (by omega), update_of_ne (by omega), p.first hsome]
  · intro n hn
    by_cases hlast : n = ts.length
    · rw [hdata, hlast, update_self, List.getElem?_concat_length]
    · rw [hdata, update_of_ne (by omega), p.data n (by omega),
        List.getElem?_append_left (by omega)]
  · intro n hn hlt
    rw [hprevious, update_of_ne (by omega), update_of_ne (by omega), p.free n (by omega) hlt]

/-- `append` to a list with elements takes the slot behind the last one. -/
theorem append_cons (p : Packed l ts) (hsome : 0 < ts.length) (hroom : ts.length < 9)
    (build : Build) (t : T) :
    ∃ l', l.append build t = some l' ∧ Packed l' (ts ++ [t]) := by
  have hsize := p.size
  have hcapacity := p.capacity
  have hnew := p.cells (ts.length + 1) (by omega)
  obtain ⟨l1, h1, w1⟩ :=
    modify_spec hnew (fun node => { node with data := some t, previous := (ts.length : Int) })
  have s1 := w1.shape
  have htail : (l1.slot ts.length).isSome := by
    rw [s1.isSome]
    exact p.cells ts.length (by omega)
  obtain ⟨l2, h2, w2⟩ :=
    modify_spec htail (fun node => { node with next := ((ts.length + 1 : Nat) : Int) })
  have s2 := s1.write w2
  have hhead : (l2.slot 0).isSome := by
    rw [s2.isSome]
    exact p.cells 0 (by omega)
  obtain ⟨l3, h3, w3⟩ :=
    modify_spec hhead (fun head => { head with previous := ((ts.length + 1 : Nat) : Int) })
  have s3 := s2.write w3
  have hnext : l3.nextOf = update l.nextOf ts.length (some ((ts.length + 1 : Nat) : Int)) := by
    rw [w3.nextOf_keep (fun _ => rfl), w2.nextOf htail (fun _ => rfl),
      w1.nextOf_keep (fun _ => rfl)]
    rfl
  have hprevious : l3.previousOf = update (update l.previousOf (ts.length + 1 : Nat)
      (some (ts.length : Int))) 0 (some ((ts.length + 1 : Nat) : Int)) := by
    rw [w3.previousOf hhead (fun _ => rfl), w2.previousOf_keep (fun _ => rfl),
      w1.previousOf hnew (fun _ => rfl)]
    rfl
  have hdata : l3.dataOf = update l.dataOf (ts.length + 1 : Nat) (some t) := by
    rw [w3.dataOf_keep (fun _ => rfl), w2.dataOf_keep (fun _ => rfl), w1.dataOf hnew (fun _ => rfl)]
  have hsize3 := s3.size
  have hcapacity3 := s3.capacity
  have hcount := countUp_small (l := l3) (by omega) (by omega)
  refine ⟨{ l3 with size := l3.size + 1 }, ?_, ?_⟩
  · rw [append, if_neg (p.not_stops build), if_neg (by omega)]
    simp only [p.last hsome, p.getFreeIndex hroom, Option.bind_eq_bind, Option.bind_some, h1, h2,
      h3, hcount]
  · have hsize' : l3.size + 1 = l.size + 1 := by rw [s3.size]
    exact p.extend hsome hroom s3.capacity hsize' s3.isSome hnext hprevious hdata

/-- `append` to an empty list takes slot 1. -/
theorem append_nil (p : Packed l []) (build : Build) (t : T) :
    ∃ l', l.append build t = some l' ∧ Packed l' [t] := by
  have hsize := p.size
  have hcapacity := p.capacity
  have hfirst : (l.slot 1).isSome := p.cells 1 (by omega)
  obtain ⟨l1, h1, w1⟩ :=
    modify_spec hfirst (fun _ => { data := some t, next := 2, previous := 1 })
  have hhead : (l1.slot 0).isSome := by
    rw [w1.isSome]
    exact p.cells 0 (by omega)
  obtain ⟨l2, h2, w2⟩ :=
    modify_spec hhead (fun head => { head with next := 1, previous := 1 })
  have s2 := w1.shape.write w2
  have hnext : l2.nextOf 0 = some 1 := by
    rw [w2.nextOf hhead (fun _ => rfl), update_self]
    rfl
  have hprevious : l2.previousOf = update (update l.previousOf 1 (some 1)) 0 (some 1) := by
    rw [w2.previousOf hhead (fun _ => rfl), w1.previousOf hfirst (fun _ => rfl)]
    rfl
  have hdata : l2.dataOf 1 = some t := by
    rw [w2.dataOf_keep (fun _ => rfl), w1.dataOf hfirst (fun _ => rfl), update_self]
  have hsize2 := s2.size
  have hcapacity2 := s2.capacity
  rw [List.length_nil] at hsize
  have hcount := countUp_small (l := l2) (by omega) (by omega)
  refine ⟨{ l2 with size := l2.size + 1 }, ?_, ?_, ?_, ?_, ?_, ?_, ?_, ?_, ?_, ?_, ?_⟩
  · rw [append, if_neg (p.not_stops build), if_pos hsize]
    simp only [Option.bind_eq_bind, Option.bind_some, h1, h2, hcount]
  · exact (by omega : l2.capacity = 10)
  · show l2.size + 1 = 1
    omega
  · exact (by omega : 1 ≤ 9)
  · intro n hn
    show (l2.slot n).isSome
    rw [s2.isSome]
    exact p.cells n hn
  · intro n hn
    obtain rfl : n = 0 := Nat.lt_one_iff.mp hn
    exact hnext
  · intro _
    show l2.previousOf 0 = some 1
    rw [hprevious, update_self]
  · intro n hn hlt
    exact absurd (Nat.lt_one_iff.mp hlt) (by omega)
  · intro _
    show l2.previousOf 1 = some 1
    rw [hprevious, update_of_ne (by omega), update_self]
  · intro n hn
    obtain rfl : n = 0 := Nat.lt_one_iff.mp hn
    exact hdata
  · intro n hn hlt
    rw [List.length_singleton] at hn
    show l2.previousOf n = _
    rw [hprevious, update_of_ne (by omega), update_of_ne (by omega)]
    exact p.free n (by rw [List.length_nil]; omega) hlt

/-- Up to nine elements are stored in order. -/
theorem append (p : Packed l ts) (hroom : ts.length < 9) (build : Build) (t : T) :
    ∃ l', l.append build t = some l' ∧ Packed l' (ts ++ [t]) := by
  rcases ts with _ | ⟨u, us⟩
  · exact p.append_nil build t
  · exact p.append_cons (Nat.succ_pos us.length) hroom build t

/-- The tenth element is written to index -1. -/
theorem append_full (p : Packed l ts) (hfull : ts.length = 9) (build : Build) (t : T) :
    l.append build t = none := by
  have hsize := p.size
  have houtside : l.slot npos = none := if_pos (by decide)
  rw [StaticList.append, if_neg (p.not_stops build), if_neg (by omega), p.last (by omega)]
  simp only [Option.bind_eq_bind, Option.bind_some, p.getFreeIndex_full hfull,
    modify_none houtside, Option.bind_none]

/-! ## Walks -/

theorem walk_next (p : Packed l ts) (n : Nat) :
    ∀ m : Nat, m + n ≤ ts.length → walk l.nextOf n m = some ((m + n : Nat) : Int) := by
  induction n with
  | zero =>
      intro m _
      rfl
  | succ n ih =>
      intro m hle
      rw [walk, p.next m (by omega), Option.bind_some, ih (m + 1) (by omega)]
      congr 2
      omega

theorem walk_previous (p : Packed l ts) {m : Nat} (hm : 0 < m) (n : Nat) :
    m + n ≤ ts.length → walk l.previousOf n (m + n : Nat) = some (m : Int) := by
  induction n with
  | zero =>
      intro _
      rfl
  | succ n ih =>
      intro hle
      rw [walk, ← Nat.add_assoc, p.previous (m + n) (by omega) (by omega), Option.bind_some]
      exact ih (by omega)

/-- From the front the walk to `pos` ends in slot `pos + 1`. -/
theorem from_front (p : Packed l ts) {pos : Nat} (hpos : pos < ts.length) :
    (l.nextOf 0).bind (walk l.nextOf pos) = some ((pos + 1 : Nat) : Int) := by
  have hstart := p.next 0 (by omega)
  rw [show ((0 : Nat) : Int) = 0 from rfl] at hstart
  rw [hstart, Option.bind_some, p.walk_next pos (0 + 1) (by omega)]
  congr 2
  omega

/-- So does the walk from the back. -/
theorem from_back (p : Packed l ts) {pos : Nat} (hpos : pos < ts.length) :
    (l.previousOf 0).bind (walk l.previousOf (l.size - 1 - pos)) =
      some ((pos + 1 : Nat) : Int) := by
  have hsize := p.size
  have hwalk := p.walk_previous (Nat.succ_pos pos) (l.size - 1 - pos) (by omega)
  rw [show pos + 1 + (l.size - 1 - pos) = ts.length by omega] at hwalk
  rw [p.last (by omega), Option.bind_some, hwalk]

theorem findNodeIndex (p : Packed l ts) {pos : Nat} (hpos : pos < ts.length) :
    l.findNodeIndex pos = some ((pos + 1 : Nat) : Int) := by
  have hsize := p.size
  rw [StaticList.findNodeIndex, if_neg (by omega)]
  by_cases hhalf : pos > l.size / 2
  · rw [if_pos hhalf]
    exact p.from_back hpos
  · rw [if_neg hhalf]
    exact p.from_front hpos

theorem at' (p : Packed l ts) (pos : Nat) :
    l.at' pos = some (ts[pos]?.elim .outOfRange .value) := by
  have hsize := p.size
  by_cases hpos : pos < ts.length
  · have hdata := p.data pos hpos
    rw [List.getElem?_eq_getElem hpos] at hdata ⊢
    rw [StaticList.at', if_neg (by omega)]
    simp only [p.findNodeIndex hpos, hdata, Option.bind_eq_bind, Option.bind_some,
      Option.pure_def, Option.elim_some]
  · rw [StaticList.at', if_pos (by omega), List.getElem?_eq_none (by omega)]
    rfl

end Packed

/-! ## Any number of appends -/

/-- The slot that `append` takes. -/
def chosen (l : StaticList T) : Int := if l.size = 0 then 1 else l.getFreeIndex

/-- One `append`, with a record of the slots taken so far. -/
def appendNoting (build : Build) (noted : StaticList T × List Int) (t : T) :
    Option (StaticList T × List Int) :=
  (noted.1.append build t).map fun l => (l, noted.2 ++ [noted.1.chosen])

/-- A fresh list after appending `ts`, and the slots that were taken. -/
def appendAll (build : Build) (ts : List T) : Option (StaticList T × List Int) :=
  ts.foldlM (appendNoting build) (construct, [])

/-- The elements of the list are `ts`, and they are still in the slots `slots` that were
taken for them: no two share a slot, `at` finds each, and so does the walk from either
end. -/
structure Placed (l : StaticList T) (ts : List T) (slots : List Int) : Prop where
  size : l.size = ts.length
  nodup : slots.Nodup
  data : slots.map l.dataOf = ts.map some
  front : ∀ pos < l.size, (l.nextOf 0).bind (walk l.nextOf pos) = slots[pos]?
  back : ∀ pos < l.size,
    (l.previousOf 0).bind (walk l.previousOf (l.size - 1 - pos)) = slots[pos]?
  at' : ∀ pos, l.at' pos = some (ts[pos]?.elim .outOfRange .value)

/-- Appending `ts` one by one goes well: at each point the elements so far are in place,
and the slot for the next one lies in the array, behind the head. -/
def AppendsWell (build : Build) (ts : List T) : Prop :=
  ∀ us, us <+: ts → ∃ l slots, appendAll build us = some (l, slots) ∧ l.Placed us slots ∧
    (us ≠ ts → 1 ≤ l.chosen ∧ l.chosen < l.capacity)

/-- The slots 1, 2, … -/
def firstSlots (n : Nat) : List Int := (List.range' 1 n).map fun i : Nat => (i : Int)

theorem firstSlots_succ (n : Nat) :
    firstSlots (n + 1) = firstSlots n ++ [((n + 1 : Nat) : Int)] := by
  rw [firstSlots, List.range'_1_concat, List.map_append, Nat.add_comm 1 n]
  rfl

theorem length_firstSlots (n : Nat) : (firstSlots n).length = n := by
  rw [firstSlots, List.length_map, List.length_range']

theorem mem_firstSlots {n : Nat} : i ∈ firstSlots n ↔ 1 ≤ i ∧ i ≤ n := by
  rw [firstSlots, List.mem_map]
  constructor
  · rintro ⟨m, hm, rfl⟩
    rw [List.mem_range'_1] at hm
    omega
  · rintro ⟨hpos, hle⟩
    refine ⟨i.toNat, List.mem_range'_1.mpr ?_, ?_⟩
    · omega
    · omega

theorem nodup_firstSlots (n : Nat) : (firstSlots n).Nodup :=
  List.Nodup.map (fun _ _ h => Int.ofNat_inj.mp h) List.nodup_range'

theorem getElem?_firstSlots {n pos : Nat} (hpos : pos < n) :
    (firstSlots n)[pos]? = some ((pos + 1 : Nat) : Int) := by
  rw [firstSlots, List.getElem?_map, List.getElem?_range' hpos, Option.map_some]
  congr 2
  omega

namespace Packed

theorem chosen (p : Packed l ts) (hroom : ts.length < 9) :
    l.chosen = ((ts.length + 1 : Nat) : Int) := by
  have hsize := p.size
  rw [StaticList.chosen]
  by_cases hempty : l.size = 0
  · rw [if_pos hempty]
    omega
  · rw [if_neg hempty, p.getFreeIndex hroom]

theorem dataOf_firstSlots (p : Packed l ts) :
    (firstSlots ts.length).map l.dataOf = ts.map some := by
  apply List.ext_getElem?
  intro pos
  rw [List.getElem?_map, List.getElem?_map]
  by_cases hpos : pos < ts.length
  · rw [getElem?_firstSlots hpos, Option.map_some, p.data pos hpos,
      List.getElem?_eq_getElem hpos, Option.map_some]
  · have hlength := length_firstSlots ts.length
    rw [List.getElem?_eq_none (by omega), List.getElem?_eq_none (by omega)]
    rfl

/-- A packed list has its elements in place. -/
theorem placed (p : Packed l ts) : l.Placed ts (firstSlots ts.length) where
  size := p.size
  nodup := nodup_firstSlots ts.length
  data := p.dataOf_firstSlots
  front pos hpos := by
    rw [p.size] at hpos
    rw [p.from_front hpos, getElem?_firstSlots hpos]
  back pos hpos := by
    rw [p.size] at hpos
    rw [p.from_back hpos, getElem?_firstSlots hpos]
  at' := p.at'

end Packed

/-- Up to nine appends on a fresh list take the slots in order. -/
theorem appendAll_packed (build : Build) (ts : List T) (hfew : ts.length ≤ 9) :
    ∃ l, appendAll build ts = some (l, firstSlots ts.length) ∧ Packed l ts := by
  induction ts using List.reverseRecOn with
  | nil => exact ⟨construct, rfl, construct_packed⟩
  | append_singleton ts t ih =>
      rw [List.length_append, List.length_singleton] at hfew ⊢
      obtain ⟨l, hl, p⟩ := ih (by omega)
      obtain ⟨l', hl', p'⟩ := p.append (by omega) build t
      refine ⟨l', ?_, p'⟩
      rw [appendAll] at hl ⊢
      rw [List.foldlM_append, hl, firstSlots_succ, ← p.chosen (by omega)]
      simp only [Option.bind_eq_bind, Option.bind_some, List.foldlM_cons, List.foldlM_nil,
        appendNoting, hl', Option.map_some, Option.pure_def]

/-- **Appends on a fresh list go well as long as there are at most nine.** For the tenth
one there is no free slot, and the test for growth, which comes after the element was
placed, is too late. -/
theorem appendsWell_iff (build : Build) (ts : List T) :
    AppendsWell build ts ↔ ts.length ≤ 9 := by
  constructor
  · intro hwell
    apply Nat.le_of_not_lt
    intro hmany
    obtain ⟨l, slots, hl, -, hnext⟩ := hwell (ts.take 9) (List.take_prefix 9 ts)
    have hlength : (ts.take 9).length = 9 := List.length_take_of_le (by omega)
    obtain ⟨l', hl', p⟩ := appendAll_packed build (ts.take 9) (by omega)
    rw [hl', Option.some_inj] at hl
    obtain rfl : l' = l := congrArg Prod.fst hl
    have hproper : ts.take 9 ≠ ts := by
      intro heq
      rw [heq] at hlength
      omega
    have hsize := p.size
    obtain ⟨hinside, -⟩ := hnext hproper
    rw [chosen, if_neg (by omega), p.getFreeIndex_full hlength] at hinside
    exact absurd hinside (by decide)
  · intro hfew us hus
    have hle := hus.length_le
    obtain ⟨l, hl, p⟩ := appendAll_packed build us (by omega)
    refine ⟨l, _, hl, p.placed, ?_⟩
    intro hne
    have hlt : us.length < ts.length := by
      apply Nat.lt_of_le_of_ne hle
      intro heq
      exact hne (hus.eq_of_length heq)
    have hcapacity := p.capacity
    rw [p.chosen (by omega)]
    omega

/-- The tenth element of a release build is written to index -1. -/
theorem tenth_append_fails :
    ¬ AppendsWell .release (List.range 10) ∧ appendAll .release (List.range 10) = none := by
  refine ⟨?_, by decide⟩
  intro hwell
  obtain ⟨l, slots, hl, -⟩ := hwell (List.range 10) List.prefix_rfl
  rw [show appendAll .release (List.range 10) = none by decide] at hl
  cases hl

end LearnSpace.DataStructure.StaticList
