import Mathlib.Data.List.Chain
import LearnSpace.DataStructure.StaticListAppend

/-!
# The list in an array under insertion and removal

Only the end of the list is safe. What is appended, and what is removed from the end,
leaves the list packed. An element that is removed from further inside keeps its link to
the one before it, so its slot never gets free again. An `insert` before the end gives the
element behind the new one its own index as the previous one, so the walk from the back
does not come past it.
-/

namespace LearnSpace.DataStructure.StaticList

open Keel Function

variable {T : Type} {l l' : StaticList T} {ts : List T} {slots : List Int} {pos : Nat} {t : T}

/-! ## Calls -/

/-- The calls. -/
inductive Call (T : Type)
  | append (t : T)
  | insert (pos : Nat) (t : T)
  | removeAt (pos : Nat)
  deriving DecidableEq

/-- What a call does to the list. -/
def Call.run (build : Build) (l : StaticList T) : Call T → Option (StaticList T)
  | .append t => l.append build t
  | .insert pos t => l.insert build pos t
  | .removeAt pos => l.removeAt pos

/-- What a call does to a sequence. -/
def Call.edited (ts : List T) : Call T → List T
  | .append t => ts ++ [t]
  | .insert pos t => ts.insertIdx pos t
  | .removeAt pos => ts.eraseIdx pos

/-- The call adds no element that the array, of which one slot is the head, has no place
for. -/
def Call.Fits (l : StaticList T) : Call T → Prop
  | .append _ => l.size + 1 < l.capacity
  | .insert pos _ => pos ≤ l.size → l.size + 1 < l.capacity
  | .removeAt _ => True

/-- The call concerns the end of the list, or a position behind it. -/
def Call.AtEnd (l : StaticList T) : Call T → Prop
  | .append _ => True
  | .insert pos _ => l.size ≤ pos
  | .removeAt pos => l.size ≤ pos + 1

/-- Runs within the capacity that only touch the end of the list, beside the sequence
that the list is to hold. -/
def atEnd (build : Build) (T : Type) : TSys (StaticList T × List T) (Call T) where
  init s := s = (construct, [])
  step s c s' :=
    c.Fits s.1 ∧ c.AtEnd s.1 ∧ c.run build s.1 = some s'.1 ∧ s'.2 = c.edited s.2

/-! ## Chains of links -/

theorem follow_eq_some {link : Int → Option Int} {n : Nat} :
    ∀ {i : Int} {js : List Int}, follow link n i = some js ↔
      js.length = n ∧ (i :: js).IsChain (fun a b => link a = some b) := by
  induction n with
  | zero =>
      intro i js
      rw [follow, Option.some_inj, List.length_eq_zero_iff]
      constructor
      · rintro rfl
        exact ⟨rfl, List.isChain_singleton i⟩
      · rintro ⟨rfl, -⟩
        rfl
  | succ n ih =>
      intro i js
      rw [follow, Option.bind_eq_bind, Option.bind_eq_some_iff]
      constructor
      · rintro ⟨j, hj, hrest⟩
        rw [Option.bind_eq_bind, Option.bind_eq_some_iff] at hrest
        obtain ⟨js', hjs', heq⟩ := hrest
        obtain ⟨hlength, hchain⟩ := ih.mp hjs'
        obtain rfl : j :: js' = js := Option.some_inj.mp heq
        exact ⟨congrArg (· + 1) hlength, List.isChain_cons_cons.mpr ⟨hj, hchain⟩⟩
      · rintro ⟨hlength, hchain⟩
        cases js with
        | nil => cases hlength
        | cons j js =>
            obtain ⟨hj, hrest⟩ := List.isChain_cons_cons.mp hchain
            have hjs := ih.mpr ⟨Nat.succ_inj.mp hlength, hrest⟩
            refine ⟨j, hj, ?_⟩
            rw [hjs]
            rfl

namespace Holds

theorem length_slots (h : l.Holds ts slots) : slots.length = ts.length := by
  have hforwards := (follow_eq_some.mp h.forwards).1
  rw [hforwards, h.size]

theorem next_chain (h : l.Holds ts slots) :
    (0 :: slots).IsChain (fun i j => l.nextOf i = some j) :=
  (follow_eq_some.mp h.forwards).2

theorem previous_chain (h : l.Holds ts slots) :
    (0 :: slots.reverse).IsChain (fun i j => l.previousOf i = some j) :=
  (follow_eq_some.mp h.backwards).2

/-- The slots in use are those of the elements. -/
theorem mem_of_occupied (h : l.Holds ts slots) {n : Nat} (hpos : 1 ≤ n) (hn : n < l.capacity)
    (hoccupied : l.previousOf n ≠ some npos) : (n : Int) ∈ slots := by
  by_contra hout
  exact hoccupied (h.free n hpos hn hout)

/-- If the first `n` slots are in use there are at least `n` elements. -/
theorem le_length (h : l.Holds ts slots) {n : Nat} (hn : n < l.capacity)
    (hoccupied : ∀ m : Nat, 1 ≤ m → m ≤ n → l.previousOf m ≠ some npos) :
    n ≤ ts.length := by
  have hsub : firstSlots n ⊆ slots := by
    intro i hi
    obtain ⟨hlow, hhigh⟩ := mem_firstSlots.mp hi
    have hcast : ((i.toNat : Nat) : Int) = i := Int.toNat_of_nonneg (by omega)
    have hmem := h.mem_of_occupied (n := i.toNat) (by omega) (by omega)
      (hoccupied i.toNat (by omega) (by omega))
    rwa [hcast] at hmem
  have hle := (List.subperm_of_subset (nodup_firstSlots n) hsub).length_le
  rw [length_firstSlots, h.length_slots] at hle
  exact hle

/-- An element that names itself as the previous one is the first of the list. -/
theorem first_of_self (h : l.Holds ts slots) {i : Int} (hi : i ∈ slots)
    (hself : l.previousOf i = some i) : l.nextOf 0 = some i := by
  obtain ⟨xs, ys, hsplit⟩ := List.append_of_mem hi
  have hnext := h.next_chain
  rw [hsplit] at hnext
  rcases List.eq_nil_or_concat' xs with rfl | ⟨xs, j, rfl⟩
  · exact (List.isChain_cons_cons.mp hnext).1
  · have hprevious := List.isChain_reverse.mp h.previous_chain.tail
    rw [hsplit, List.append_assoc] at hprevious
    have hlink := (List.isChain_append_cons_cons.mp hprevious).2.1
    rw [hself, Option.some_inj] at hlink
    have hnodup := h.nodup
    rw [hsplit, hlink, List.append_assoc] at hnodup
    have htail := (List.nodup_append.mp hnodup).2.1
    exact absurd (List.mem_cons_self) (List.nodup_cons.mp htail).1

end Holds

namespace Packed

/-! ## A packed list holds its elements -/

theorem follow_next (p : Packed l ts) (n : Nat) :
    ∀ m : Nat, m + n ≤ ts.length →
      follow l.nextOf n m = some ((List.range' (m + 1) n).map fun i : Nat => (i : Int)) := by
  induction n with
  | zero =>
      intro m _
      rfl
  | succ n ih =>
      intro m hle
      rw [follow, p.next m (by omega), Option.bind_eq_bind, Option.bind_some,
        ih (m + 1) (by omega), List.range'_succ]
      rfl

theorem follow_previous (p : Packed l ts) (n : Nat) :
    n + 1 ≤ ts.length → follow l.previousOf n (n + 1 : Nat) = some (firstSlots n).reverse := by
  induction n with
  | zero =>
      intro _
      rfl
  | succ n ih =>
      intro hle
      rw [follow, p.previous (n + 1) (by omega) (by omega), Option.bind_eq_bind,
        Option.bind_some, ih (by omega), firstSlots_succ, List.reverse_append]
      rfl

theorem backwards (p : Packed l ts) :
    follow l.previousOf l.size 0 = some (firstSlots ts.length).reverse := by
  rw [p.size]
  rcases hlength : ts.length with _ | n
  · rfl
  · rw [follow, p.last (by omega), hlength, Option.bind_eq_bind, Option.bind_some,
      p.follow_previous n (by omega), firstSlots_succ, List.reverse_append]
    rfl

theorem holds (p : Packed l ts) : l.Holds ts (firstSlots ts.length) where
  size := p.size
  inside i hi := by
    have hfits := p.fits
    have hcapacity := p.capacity
    have hmem := mem_firstSlots.mp hi
    omega
  nodup := nodup_firstSlots ts.length
  forwards := by
    rw [p.size]
    exact p.follow_next ts.length 0 (by omega)
  backwards := p.backwards
  data := p.dataOf_firstSlots
  at' := p.at'
  free n hpos hn hout := by
    have hcapacity := p.capacity
    have hbehind : ts.length < n := by
      rw [mem_firstSlots] at hout
      omega
    exact p.free n hbehind (by omega)

/-! ## Calls at the end -/

/-- What `removeAt` of the last element writes: the slot `m` in front gets to be the last
one, and the slot behind it free. -/
theorem removeAt_last_run (p : Packed l ts) (hsome : 0 < ts.length) :
    ∃ (l' : StaticList T) (m : Nat), l.removeAt (ts.length - 1) = some l' ∧
      (1 ≤ m ∧ m ≤ ts.length ∧ (2 ≤ ts.length → m = ts.length - 1)) ∧
      l'.nextOf = update l.nextOf m (some npos) ∧
      l'.previousOf =
        update (update l.previousOf 0 (some (m : Int))) ts.length (some npos) ∧
      l'.dataOf = l.dataOf ∧ l'.size = l.size - 1 ∧ l'.capacity = l.capacity ∧
      ∀ n, (l'.slot n).isSome = (l.slot n).isSome := by
  have hsize := p.size
  have hfits := p.fits
  have hcapacity := p.capacity
  -- the first element names itself as the one before it
  obtain ⟨m, hm, hmpos, hmle, hsecond⟩ : ∃ m : Nat, l.previousOf ts.length = some (m : Int) ∧
      1 ≤ m ∧ m ≤ ts.length ∧ (2 ≤ ts.length → m = ts.length - 1) := by
    by_cases hone : ts.length = 1
    · refine ⟨1, ?_, by omega, by omega, by omega⟩
      rw [hone]
      exact p.first hsome
    · have hprevious := p.previous (ts.length - 1) (by omega) (by omega)
      rw [show ts.length - 1 + 1 = ts.length by omega] at hprevious
      exact ⟨ts.length - 1, hprevious, by omega, by omega, by omega⟩
  have hcell := p.cells m (by omega)
  obtain ⟨l1, h1, w1⟩ := modify_spec hcell (fun node => { node with next := npos })
  have s1 := w1.shape
  have hhead : (l1.slot 0).isSome := by
    rw [s1.isSome]
    exact p.cells 0 (by omega)
  obtain ⟨l2, h2, w2⟩ := modify_spec hhead
    (fun head => { head with previous := if (m : Int) = 0 then npos else m })
  have s2 := s1.write w2
  have htail : (l2.slot ts.length).isSome := by
    rw [s2.isSome]
    exact p.cells ts.length (by omega)
  obtain ⟨l3, h3, w3⟩ := modify_spec htail (fun node => { node with previous := npos })
  have s3 := s2.write w3
  have hprevious1 : l1.previousOf = l.previousOf := w1.previousOf_keep (fun _ => rfl)
  have hnext : l3.nextOf = update l.nextOf m (some npos) := by
    rw [w3.nextOf_keep (fun _ => rfl), w2.nextOf_keep (fun _ => rfl),
      w1.nextOf hcell (fun _ => rfl)]
    rfl
  have hprevious : l3.previousOf =
      update (update l.previousOf 0 (some (m : Int))) ts.length (some npos) := by
    rw [w3.previousOf htail (fun _ => rfl),
      w2.previousOf hhead (fun _ => if_neg (by omega)), hprevious1]
    rfl
  have hdata : l3.dataOf = l.dataOf := by
    rw [w3.dataOf_keep (fun _ => rfl), w2.dataOf_keep (fun _ => rfl),
      w1.dataOf_keep (fun _ => rfl)]
  refine ⟨{ l3 with size := l3.size - 1 }, m, ?_, ⟨hmpos, hmle, hsecond⟩, hnext, hprevious,
    hdata, congrArg (· - 1) s3.size, s3.capacity, s3.isSome⟩
  rw [removeAt, if_neg (by omega), if_pos (by omega)]
  simp only [p.last hsome, hm, h1, hprevious1, h2, h3, Option.bind_eq_bind, Option.bind_some,
    Option.pure_def]

/-- The last element is taken off the list, and its slot gets free. -/
theorem removeAt_last (p : Packed l ts) (hsome : 0 < ts.length) :
    ∃ l', l.removeAt (ts.length - 1) = some l' ∧ Packed l' ts.dropLast := by
  obtain ⟨l', m, hcall, ⟨hmpos, hmle, hsecond⟩, hnext, hprevious, hdata, hsize', hcapacity',
    hslot⟩ := p.removeAt_last_run hsome
  have hsize := p.size
  have hfits := p.fits
  have hcapacity := p.capacity
  have hlength : ts.dropLast.length = ts.length - 1 := List.length_dropLast
  refine ⟨l', hcall, ?_, ?_, ?_, ?_, ?_, ?_, ?_, ?_, ?_, ?_⟩
  · exact hcapacity'.trans hcapacity
  · rw [hsize', hsize, hlength]
  · omega
  · intro n hn
    rw [hslot]
    exact p.cells n hn
  · intro n hn
    rw [hnext, update_of_ne (by omega), p.next n (by omega)]
  · intro hsome'
    rw [hprevious, update_of_ne (by omega), update_self, hlength, hsecond (by omega)]
  · intro n hn hlt
    rw [hprevious, update_of_ne (by omega), update_of_ne (by omega), p.previous n hn (by omega)]
  · intro hsome'
    rw [hprevious, update_of_ne (by omega), update_of_ne (by omega), p.first hsome]
  · intro n hn
    rw [hdata, p.data n (by omega), List.getElem?_dropLast, if_pos (by omega)]
  · intro n hn hlt
    by_cases hlast : n = ts.length
    · rw [hprevious, hlast, update_self]
    · rw [hprevious, update_of_ne (by omega), update_of_ne (by omega), p.free n (by omega) hlt]

/-- Calls at the end keep the list packed. -/
theorem run_atEnd (p : Packed l ts) (build : Build) {c : Call T} (hfits : c.Fits l)
    (hend : c.AtEnd l) : ∃ l', c.run build l = some l' ∧ Packed l' (c.edited ts) := by
  have hsize := p.size
  have hcapacity := p.capacity
  cases c with
  | append t =>
      have hroom : l.size + 1 < l.capacity := hfits
      exact p.append (by omega) build t
  | insert pos t =>
      have hbehind : l.size ≤ pos := hend
      by_cases hpos : pos > l.size
      · refine ⟨l, if_pos hpos, ?_⟩
        rw [Call.edited, List.insertIdx_of_length_lt (by omega)]
        exact p
      · obtain rfl : pos = l.size := by omega
        have hroom := hfits (le_refl _)
        obtain ⟨l', happend, p'⟩ := p.append (by omega) build t
        refine ⟨l', ?_, ?_⟩
        · rw [Call.run, StaticList.insert, if_neg hpos, if_pos rfl, happend]
        · rw [Call.edited, hsize, List.insertIdx_length_self]
          exact p'
  | removeAt pos =>
      have hbehind : l.size ≤ pos + 1 := hend
      by_cases hpos : pos ≥ l.size
      · refine ⟨l, if_pos hpos, ?_⟩
        rw [Call.edited, List.eraseIdx_of_length_le (by omega)]
        exact p
      · obtain rfl : pos = ts.length - 1 := by omega
        obtain ⟨l', hremove, p'⟩ := p.removeAt_last (by omega)
        refine ⟨l', hremove, ?_⟩
        rw [Call.edited, ← List.dropLast_eq_eraseIdx (by omega)]
        exact p'

/-! ## Calls further inside -/

/-- The link back from an element: the first one names itself. -/
theorem previous_exists (p : Packed l ts) (hpos : pos < ts.length) :
    ∃ m : Nat, l.previousOf (pos + 1 : Nat) = some (m : Int) ∧ 1 ≤ m ∧ m ≤ pos + 1 ∧
      (pos = 0 → m = 1) := by
  rcases pos with _ | pos
  · exact ⟨1, p.first (by omega), by omega, by omega, fun _ => rfl⟩
  · exact ⟨pos + 1, p.previous (pos + 1) (by omega) hpos, by omega, by omega, by omega⟩

/-- What `removeAt` leaves of a list when the element is not the last one: its slot is
linked to the one before it as it was. -/
theorem removeAt_inside (p : Packed l ts) (hpos : pos + 1 < ts.length) :
    ∃ l', l.removeAt pos = some l' ∧ l'.capacity = l.capacity ∧
      ∀ n : Nat, 1 ≤ n → n ≤ ts.length → l'.previousOf n ≠ some npos := by
  have hsize := p.size
  have hfits := p.fits
  obtain ⟨m, hm, hmpos, hmle, -⟩ := p.previous_exists (show pos < ts.length by omega)
  have hnext := p.next (pos + 1) hpos
  have hcell := p.cells m (by omega)
  obtain ⟨l1, h1, w1⟩ :=
    modify_spec hcell (fun node => { node with next := ((pos + 1 + 1 : Nat) : Int) })
  have hbehind : (l1.slot (pos + 1 + 1 : Nat)).isSome := by
    rw [w1.isSome]
    exact p.cells (pos + 1 + 1) (by omega)
  obtain ⟨l2, h2, w2⟩ := modify_spec hbehind (fun node => { node with previous := (m : Int) })
  have hprevious : l2.previousOf =
      update l.previousOf (pos + 1 + 1 : Nat) (some (m : Int)) := by
    rw [w2.previousOf hbehind (fun _ => rfl), w1.previousOf_keep (fun _ => rfl)]
    rfl
  refine ⟨{ l2 with size := l2.size - 1 }, ?_, (w1.shape.write w2).capacity, ?_⟩
  · rw [removeAt, if_neg (by omega), if_neg (by omega)]
    simp only [p.findNodeIndex (by omega : pos < ts.length), hm, hnext, h1, h2,
      Option.bind_eq_bind, Option.bind_some, Option.pure_def]
  · intro n hn hle
    show l2.previousOf n ≠ _
    by_cases hself : n = pos + 1 + 1
    · rw [hprevious, hself, update_self, Ne, Option.some_inj, npos]
      omega
    · rw [hprevious, update_of_ne (by omega)]
      exact p.occupied (by omega) hle

/-- What `insert` leaves of a list when it is not at the end: the element behind the new
one names itself as the previous one. -/
theorem insert_inside (p : Packed l ts) (hpos : pos < ts.length) (hroom : ts.length < 9)
    (build : Build) (t : T) :
    ∃ l', l.insert build pos t = some l' ∧ l'.capacity = l.capacity ∧
      l'.previousOf (pos + 1 : Nat) = some ((pos + 1 : Nat) : Int) ∧ l'.nextOf 0 = some 1 ∧
      l'.previousOf 0 = some (ts.length : Int) ∧
      (pos = 0 → l'.nextOf 1 = some ((ts.length + 1 : Nat) : Int) ∧
        l'.nextOf (ts.length + 1 : Nat) = some 1) := by
  have hsize := p.size
  have hcapacity := p.capacity
  obtain ⟨m, hm, hmpos, hmle, hmfirst⟩ := p.previous_exists hpos
  have hnew := p.cells (ts.length + 1) (by omega)
  obtain ⟨l1, h1, w1⟩ := modify_spec hnew (fun node => { node with data := some t })
  have s1 := w1.shape
  have hcell : (l1.slot m).isSome := by
    rw [s1.isSome]
    exact p.cells m (by omega)
  obtain ⟨l2, h2, w2⟩ :=
    modify_spec hcell (fun node => { node with next := ((ts.length + 1 : Nat) : Int) })
  have s2 := s1.write w2
  have hnew2 : (l2.slot (ts.length + 1 : Nat)).isSome := by
    rw [s2.isSome]
    exact hnew
  obtain ⟨l3, h3, w3⟩ := modify_spec hnew2
    (fun node => { node with next := ((pos + 1 : Nat) : Int), previous := (m : Int) })
  have s3 := s2.write w3
  have hbehind : (l3.slot (pos + 1 : Nat)).isSome := by
    rw [s3.isSome]
    exact p.cells (pos + 1) (by omega)
  obtain ⟨l4, h4, w4⟩ :=
    modify_spec hbehind (fun node => { node with previous := ((pos + 1 : Nat) : Int) })
  have s4 := s3.write w4
  have hnext : l4.nextOf = update (update l.nextOf m (some ((ts.length + 1 : Nat) : Int)))
      (ts.length + 1 : Nat) (some ((pos + 1 : Nat) : Int)) := by
    rw [w4.nextOf_keep (fun _ => rfl), w3.nextOf hnew2 (fun _ => rfl),
      w2.nextOf hcell (fun _ => rfl), w1.nextOf_keep (fun _ => rfl)]
    rfl
  have hprevious : l4.previousOf = update (update l.previousOf (ts.length + 1 : Nat)
      (some (m : Int))) (pos + 1 : Nat) (some ((pos + 1 : Nat) : Int)) := by
    rw [w4.previousOf hbehind (fun _ => rfl), w3.previousOf hnew2 (fun _ => rfl),
      w2.previousOf_keep (fun _ => rfl), w1.previousOf_keep (fun _ => rfl)]
    rfl
  have hsize4 := s4.size
  have hcapacity4 := s4.capacity
  have hcount := countUp_small (l := l4) (by omega) (by omega)
  refine ⟨{ l4 with size := l4.size + 1 }, ?_, ?_, ?_, ?_, ?_, ?_⟩
  · rw [StaticList.insert, if_neg (by omega), if_neg (by omega)]
    simp only [p.findNodeIndex hpos, hm, p.getFreeIndex hroom, h1, h2, h3, h4, hcount,
      Option.bind_eq_bind, Option.bind_some]
  · exact (by omega : l4.capacity = l.capacity)
  · show l4.previousOf _ = _
    rw [hprevious, update_self]
  · show l4.nextOf 0 = _
    rw [hnext, update_of_ne (by omega), update_of_ne (by omega)]
    exact p.next 0 (by omega)
  · show l4.previousOf 0 = _
    rw [hprevious, update_of_ne (by omega), update_of_ne (by omega), p.last (by omega)]
  · intro hfirst
    obtain rfl : m = 1 := hmfirst hfirst
    constructor
    · show l4.nextOf 1 = _
      rw [hnext, update_of_ne (by omega)]
      exact update_self _ _ _
    · show l4.nextOf _ = _
      rw [hnext, update_self, hfirst]
      rfl

/-- A removal further inside frees no slot, so too many are in use. -/
theorem removeAt_inside_fails (p : Packed l ts) (hpos : pos + 1 < ts.length)
    (h : l.removeAt pos = some l') : ¬ l'.Holds (ts.eraseIdx pos) slots := by
  intro hholds
  have hfits := p.fits
  have hcapacity := p.capacity
  obtain ⟨l1, h1, hcapacity1, hoccupied⟩ := p.removeAt_inside hpos
  rw [h1, Option.some_inj] at h
  subst h
  have hle := hholds.le_length (by omega) hoccupied
  rw [List.length_eraseIdx_of_lt (by omega)] at hle
  omega

/-- An insertion further inside breaks the links: an element that names itself as the
previous one has to be the first, but then the new one, which was linked in behind it,
leads back to it. -/
theorem insert_inside_fails (p : Packed l ts) (hpos : pos < ts.length) (hroom : ts.length < 9)
    {build : Build} (h : l.insert build pos t = some l') :
    ¬ l'.Holds (ts.insertIdx pos t) slots := by
  intro hholds
  have hcapacity := p.capacity
  obtain ⟨l1, h1, hcapacity1, hself, hfirst, hlast, hback⟩ :=
    p.insert_inside hpos hroom build t
  rw [h1, Option.some_inj] at h
  subst h
  have hmem := hholds.mem_of_occupied (n := pos + 1) (by omega) (by omega) (by
    rw [hself, Ne, Option.some_inj, npos]
    omega)
  have hzero := hholds.first_of_self hmem hself
  rw [hfirst, Option.some_inj] at hzero
  obtain ⟨hnext, hreturn⟩ := hback (by omega)
  have hlength := hholds.length_slots
  rw [List.length_insertIdx_of_le_length (by omega)] at hlength
  have hforwards := hholds.next_chain
  rcases slots with _ | ⟨i, _ | ⟨j, rest⟩⟩
  · simp only [List.length_nil] at hlength
    omega
  · simp only [List.length_cons, List.length_nil] at hlength
    omega
  · obtain ⟨hi, hforwards⟩ := List.isChain_cons_cons.mp hforwards
    rw [hfirst, Option.some_inj] at hi
    subst hi
    obtain ⟨hj, hforwards⟩ := List.isChain_cons_cons.mp hforwards
    rw [hnext, Option.some_inj] at hj
    subst hj
    rcases rest with _ | ⟨k, rest⟩
    · -- two elements: the link to the last one names the first
      have hbackwards := (List.isChain_cons_cons.mp hholds.previous_chain).1
      rw [hlast, Option.some_inj] at hbackwards
      omega
    · obtain ⟨hk, -⟩ := List.isChain_cons_cons.mp hforwards
      rw [hreturn, Option.some_inj] at hk
      subst hk
      have hnodup := (List.nodup_cons.mp hholds.nodup).1
      exact hnodup (List.mem_cons_of_mem _ List.mem_cons_self)

/-- From a packed list the calls at the end are those after which the list holds what it
is to hold. -/
theorem run_holds_iff (p : Packed l ts) (build : Build) {c : Call T} (hfits : c.Fits l) :
    (∃ l' slots, c.run build l = some l' ∧ l'.Holds (c.edited ts) slots) ↔ c.AtEnd l := by
  have hsize := p.size
  have hcapacity := p.capacity
  constructor
  · rintro ⟨l', slots, hrun, hholds⟩
    cases c with
    | append t => trivial
    | insert pos t =>
        show l.size ≤ pos
        by_contra hinside
        have hroom : l.size + 1 < l.capacity := hfits (by omega)
        exact p.insert_inside_fails (by omega) (by omega) hrun hholds
    | removeAt pos =>
        show l.size ≤ pos + 1
        by_contra hinside
        exact p.removeAt_inside_fails (by omega) hrun hholds
  · intro hend
    obtain ⟨l', hrun, p'⟩ := p.run_atEnd build hfits hend
    exact ⟨l', _, hrun, p'.holds⟩

end Packed

/-! ## Runs -/

/-- In a run of calls at the end every list is packed. -/
theorem atEnd_packed (build : Build) :
    (atEnd build T).Invariant (fun s => Packed s.1 s.2) := by
  apply TSys.Inductive.invariant
  constructor
  · intro s hs
    rw [show s = (construct, []) from hs]
    exact construct_packed
  · intro s c s' hpacked hstep
    obtain ⟨hfits, hend, hrun, hedited⟩ := hstep
    obtain ⟨l', hrun', p'⟩ := hpacked.run_atEnd build hfits hend
    rw [hrun, Option.some_inj] at hrun'
    rw [hrun', hedited]
    exact p'

/-- **The list holds its sequence as long as only its end is touched.** In every run of
such calls within the capacity it does so in each state. The next call within the
capacity keeps that up exactly if it is at the end, too. -/
theorem atEnd_holds_iff (build : Build) {s : StaticList T × List T}
    (hs : (atEnd build T).Reachable s) :
    (∃ slots, s.1.Holds s.2 slots) ∧
      ∀ c : Call T, c.Fits s.1 →
        ((∃ l' slots, c.run build s.1 = some l' ∧ l'.Holds (c.edited s.2) slots) ↔
          c.AtEnd s.1) := by
  have hpacked := atEnd_packed build s hs
  constructor
  · exact ⟨_, hpacked.holds⟩
  · intro c hfits
    exact hpacked.run_holds_iff build hfits

theorem atEnd_holds_iff_two :
    ∃ s : StaticList Nat × List Nat, s.2 = [1, 2] ∧ (∃ slots, s.1.Holds s.2 slots) ∧
      ∀ c : Call Nat, c.Fits s.1 →
        ((∃ l' slots, c.run .release s.1 = some l' ∧ l'.Holds (c.edited s.2) slots) ↔
          c.AtEnd s.1) := by
  have h1 : ((construct : StaticList Nat).append .release 1).isSome := rfl
  have h2 : ((((construct : StaticList Nat).append .release 1).get h1).append .release 2).isSome :=
    rfl
  have hone : (atEnd .release Nat).Reachable ((construct.append .release 1).get h1, [1]) :=
    .step (e := Call.append 1) (.init rfl)
      ⟨(by decide : 0 + 1 < 10), trivial, (Option.some_get h1).symm, rfl⟩
  have htwo : (atEnd .release Nat).Reachable
      ((((construct.append .release 1).get h1).append .release 2).get h2, [1, 2]) :=
    .step (e := Call.append 2) hone
      ⟨(by decide : 1 + 1 < 10), trivial, (Option.some_get h2).symm, rfl⟩
  exact ⟨_, rfl, atEnd_holds_iff .release htwo⟩

/-- A fresh list after some calls. -/
def runAll (build : Build) (cs : List (Call T)) : Option (StaticList T) :=
  cs.foldlM (fun l c => c.run build l) construct

/-- After an insertion between two elements the walk from the back stays at the last one,
and after the removal of the first of two elements the list still starts with it. -/
theorem inside_breaks :
    (¬ ∃ l slots, runAll .release [.append 1, .append 2, .insert 1 3] = some l ∧
      l.Holds [1, 3, 2] slots) ∧
    (¬ ∃ l slots, runAll .release [.append 1, .append 2, .removeAt 0] = some l ∧
      l.Holds [2] slots) := by
  constructor
  · rintro ⟨l, slots, hrun, h⟩
    have hnext : (runAll .release [.append 1, .append 2, .insert 1 3]).bind
        (fun l => follow l.nextOf 3 0) = some [1, 3, 2] := by decide
    have hprevious : (runAll .release [.append 1, .append 2, .insert 1 3]).bind
        (fun l => follow l.previousOf 3 0) = some [2, 2, 2] := by decide
    have hforwards := h.forwards
    have hbackwards := h.backwards
    rw [hrun, Option.bind_some] at hnext hprevious
    rw [h.size, show [1, 3, 2].length = 3 from rfl] at hforwards hbackwards
    rw [hnext, Option.some_inj] at hforwards
    rw [hprevious, ← hforwards] at hbackwards
    exact absurd hbackwards (by decide)
  · rintro ⟨l, slots, hrun, h⟩
    have hfirst : (runAll .release [.append 1, .append 2, .removeAt 0]).bind
        (fun l => l.at' 0) = some (.value 1) := by decide
    have hat := h.at' 0
    rw [hrun, Option.bind_some, hat] at hfirst
    exact absurd hfirst (by decide)

end LearnSpace.DataStructure.StaticList
