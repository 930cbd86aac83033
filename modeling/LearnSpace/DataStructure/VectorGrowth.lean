import LearnSpace.DataStructure.VectorSequence

/-!
# How a vector grows

`append` and `insert` share the code that makes a larger array. What it asks for depends
on a step that the client sets, as a 32-bit sum. This module has the calls that concern
it, a vector on its own with a client that makes them in any order, and the exact
condition under which the array that is asked for holds one more element.
-/

namespace LearnSpace.DataStructure.Vector

open Keel

variable {T : Type}

/-! ## The calls -/

/-- The loop of `insert`: `count` elements, the last one at `movePos - 1`, go one to the
back. -/
def insertLoop (element : Ptr) : Nat → UInt32 → Arrays T → Option (Arrays T)
  | 0, _, h => some h
  | count + 1, movePos, h => do
    let t ← h.get element (movePos - 1).toNat
    let h ← h.set element movePos.toNat t
    insertLoop element count (movePos - 1) h

/-- `insert`. -/
def insert (build : Build) (v : Vector) (h : Arrays T) (pos : UInt32) (t : T) :
    Option (State T × Answer T) := do
  let size := v.size + 1
  if pos > size then
    return ((h, v), .done)
  if size > v.capacity ∧ build.Stops (v.capacity + 1 ≤ maxSize) then
    return ((h, v), .aborted)
  let (h, v) ← (if size > v.capacity then v.grow h else return (h, v))
  let count := v.size - pos
  let h ← insertLoop v.element count.toNat v.size h
  let h ← h.set v.element pos.toNat t
  return ((h, { v with size := v.size + 1 }), .done)

/-- `setStep`. -/
def setStep (v : Vector) (step : UInt32) : Vector := { v with step := step }

/-- The calls of a client that grows a vector and sets its step. -/
inductive Edit (T : Type)
  | append (t : T)
  | insert (pos : UInt32) (t : T)
  | removeAt (pos : UInt32)
  | removeRange (pos len : UInt32)
  | clear
  | setStep (step : UInt32)

/-- One of these calls. -/
def edit (build : Build) (σ : State T) : Edit T → Option (State T × Answer T)
  | .append t => σ.2.append build σ.1 t
  | .insert pos t => σ.2.insert build σ.1 pos t
  | .removeAt pos => σ.2.removeAt σ.1 pos
  | .removeRange pos len => σ.2.removeRange σ.1 pos len
  | .clear => (σ.2.clear σ.1).map (·, .done)
  | .setStep step => some ((σ.1, σ.2.setStep step), .done)

/-- What the client keeps to: fewer elements than the bound of all containers before one
is added, and positions of elements or just behind them. -/
def EditFits (v : Vector) : Edit T → Prop
  | .append _ => v.size < maxSize
  | .insert pos _ => v.size < maxSize ∧ pos ≤ v.size
  | .removeAt _ | .removeRange _ _ | .clear | .setStep _ => True

instance (v : Vector) : (e : Edit T) → Decidable (v.EditFits e)
  | .append _ => inferInstanceAs (Decidable (_ < _))
  | .insert _ _ => inferInstanceAs (Decidable (_ ∧ _))
  | .removeAt _ | .removeRange _ _ | .clear | .setStep _ => .isTrue trivial

/-- A vector on its own, constructed with any capacity. -/
def edits (build : Build) (T : Type) : TSys (State T) (Edit T) where
  init σ := ∃ capacity, construct build .empty capacity = (σ.1, some σ.2)
  step σ e σ' := σ.2.EditFits e ∧ ∃ answer, edit build σ e = some (σ', answer)

/-! ## What the growth code is for -/

/-- The growth code of `append` and `insert`, with the test in front of it. -/
def makeRoom (σ : State T) : Option (State T) :=
  if σ.2.size + 1 > σ.2.capacity then σ.2.grow σ.1 else some σ

/-- Behind the growth code one more element fits, and a capacity within the bound still
is. -/
def RoomMade (σ : State T) : Prop :=
  ∃ τ, makeRoom σ = some τ ∧ τ.2.size + 1 ≤ τ.2.capacity ∧
    (σ.2.capacity ≤ maxSize → τ.2.capacity ≤ maxSize)

/-- A call that adds an element makes room for it, and accesses nothing outside the
array. -/
def GrowsSafely (build : Build) (σ : State T) : Edit T → Prop
  | .append t => RoomMade σ ∧ (σ.2.append build σ.1 t).isSome
  | .insert pos t => RoomMade σ ∧ (σ.2.insert build σ.1 pos t).isSome
  | .removeAt _ | .removeRange _ _ | .clear | .setStep _ => True

/-- A full vector has a step that is not zero, and that its capacity can be raised by
without a wrap. -/
def Grows (v : Vector) : Prop :=
  v.size + 1 > v.capacity → 0 < v.step ∧ v.capacity.toNat + v.step.toNat < 2 ^ 32

/-- The calls that add no element grow nothing. -/
def GrowthFits (v : Vector) : Edit T → Prop
  | .append _ | .insert _ _ => v.Grows
  | .removeAt _ | .removeRange _ _ | .clear | .setStep _ => True

/-! ## A vector with any step -/

section Stored

variable {h h' : Arrays T} {σ σ' τ : State T} {ts us : List T} {build : Build}

/-- The vector holds `ts` at the front of its array. Nothing is said about its step. -/
structure Stored (σ : State T) (ts : List T) : Prop where
  begins : σ.1.Begins σ.2.element σ.2.capacity.toNat ts
  counted : σ.2.size.toNat = ts.length

theorem toNat_lt_maxSize (hroom : σ.2.size < maxSize) : σ.2.size.toNat < maxSize.toNat :=
  UInt32.lt_iff_toNat_lt.mp hroom

namespace Stored

theorem toNat_succ_size (s : Stored σ ts) (hroom : σ.2.size < maxSize) :
    (σ.2.size + 1).toNat = ts.length + 1 := by
  refine toNat_succ s.counted ?_
  rw [← s.counted]
  exact Nat.le_of_lt (toNat_lt_maxSize hroom)

/-- The growth code runs on a full vector. -/
theorem full_iff (s : Stored σ ts) (hroom : σ.2.size < maxSize) :
    σ.2.size + 1 > σ.2.capacity ↔ σ.2.capacity.toNat = ts.length := by
  have hle := s.begins.length_le
  show σ.2.capacity < σ.2.size + 1 ↔ _
  rw [UInt32.lt_iff_toNat_lt, s.toNat_succ_size hroom]
  omega

theorem capacity_lt (s : Stored σ ts) (hroom : σ.2.size < maxSize)
    (hfull : σ.2.capacity.toNat = ts.length) : σ.2.capacity < maxSize := by
  rw [UInt32.lt_iff_toNat_lt, hfull, ← s.counted]
  exact toNat_lt_maxSize hroom

/-- A full vector in a debug build does not fail its assertion. -/
theorem not_stops (s : Stored σ ts) (hroom : σ.2.size < maxSize) :
    ¬ (σ.2.size + 1 > σ.2.capacity ∧ build.Stops (σ.2.capacity + 1 ≤ maxSize)) := by
  rintro ⟨hfull, -, hviolated⟩
  apply hviolated
  have hlt := toNat_lt_maxSize hroom
  rw [s.counted] at hlt
  rw [UInt32.le_iff_toNat_le, toNat_succ ((s.full_iff hroom).mp hfull) (Nat.le_of_lt hlt)]
  exact hlt

/-- Where the step does, the growth code makes room for one more element. -/
theorem makeRoom (s : Stored σ ts) (hroom : σ.2.size < maxSize) (hgrows : σ.2.Grows) :
    ∃ τ, Vector.makeRoom σ = some τ ∧ Stored τ ts ∧ ts.length < τ.2.capacity.toNat ∧
      τ.2.size = σ.2.size ∧ (σ.2.capacity ≤ maxSize → τ.2.capacity ≤ maxSize) := by
  have hle := s.begins.length_le
  by_cases hfull : σ.2.size + 1 > σ.2.capacity
  · have hlength := (s.full_iff hroom).mp hfull
    have hlarger := (lt_grownCapacity_iff (s.capacity_lt hroom hlength)).mpr (hgrows hfull)
    rw [hlength] at hlarger
    obtain ⟨h', p, hgrow, hbegins, -⟩ :=
      grow_begins s.begins s.counted (Nat.le_of_lt hlarger)
    refine ⟨(h', { σ.2 with element := p, capacity := σ.2.grownCapacity }), ?_,
      ⟨hbegins, s.counted⟩, hlarger, rfl, fun _ => grownCapacity_le σ.2⟩
    rw [Vector.makeRoom, if_pos hfull, hgrow]
  · refine ⟨σ, if_neg hfull, s, ?_, rfl, id⟩
    rw [s.full_iff hroom] at hfull
    omega

/-- Where the step does not, whatever the growth code makes has no room for one more. -/
theorem no_room (s : Stored σ ts) (hroom : σ.2.size < maxSize) (hgrows : ¬ σ.2.Grows)
    (hmade : Vector.makeRoom σ = some τ) :
    Stored τ ts ∧ τ.2.size = σ.2.size ∧ τ.2.capacity.toNat ≤ ts.length := by
  obtain ⟨hfull, hstep⟩ := Classical.not_imp.mp hgrows
  have hlength := (s.full_iff hroom).mp hfull
  have hsmall := mt (lt_grownCapacity_iff (s.capacity_lt hroom hlength)).mp hstep
  rw [hlength, Nat.not_lt] at hsmall
  rw [Vector.makeRoom, if_pos hfull] at hmade
  rcases Nat.eq_or_lt_of_le hsmall with heq | hlt
  · -- a step of zero: a new array of the old length
    obtain ⟨h', p, hgrow, hbegins, -⟩ :=
      grow_begins s.begins s.counted (Nat.le_of_eq heq.symm)
    rw [hgrow] at hmade
    cases hmade
    exact ⟨⟨hbegins, s.counted⟩, rfl, hsmall⟩
  · -- a sum that wrapped: the elements do not fit any more
    have hnone := Arrays.Begins.copy_none (h := σ.1) (p := σ.2.element) (s.counted ▸ hlt)
    rw [grownCapacity] at hnone
    simp only [grow, hnone, Option.bind_eq_bind, Option.bind_none] at hmade
    cases hmade

/-! ## What the calls do -/

/-- `append` behind its assertion. -/
theorem append_eq (s : Stored σ ts) (hroom : σ.2.size < maxSize) (t : T) :
    σ.2.append build σ.1 t = (Vector.makeRoom σ).bind (fun τ =>
      (τ.1.set τ.2.element τ.2.size.toNat t).bind
        (fun h => some ((h, { τ.2 with size := τ.2.size + 1 }), .done))) := by
  rw [append, if_neg (s.not_stops hroom)]
  rfl

variable (build) in
theorem append_grows (s : Stored σ ts) (hroom : σ.2.size < maxSize) (hgrows : σ.2.Grows)
    (t : T) : ∃ τ, σ.2.append build σ.1 t = some (τ, .done) ∧ Stored τ (ts ++ [t]) := by
  obtain ⟨τ, hmade, hτ, hlt, hsize, -⟩ := s.makeRoom hroom hgrows
  obtain ⟨h', hset, hpush, -⟩ := hτ.begins.push hlt t
  rw [← hτ.counted] at hset
  refine ⟨(h', { τ.2 with size := τ.2.size + 1 }), ?_, hpush, ?_⟩
  · rw [s.append_eq hroom, hmade, Option.bind_some, hset, Option.bind_some]
  · rw [List.length_append, hsize]
    exact s.toNat_succ_size hroom

theorem append_none (s : Stored σ ts) (hroom : σ.2.size < maxSize) (hgrows : ¬ σ.2.Grows)
    (t : T) : σ.2.append build σ.1 t = none := by
  rw [s.append_eq hroom]
  cases hmade : Vector.makeRoom σ with
  | none => rfl
  | some τ =>
      obtain ⟨hτ, -, hsmall⟩ := s.no_room hroom hgrows hmade
      rw [← hτ.counted] at hsmall
      rw [Option.bind_some, hτ.begins.set_none hsmall, Option.bind_none]

/-- The loop of `insert` moves the elements `zs` one to the back, onto a cell behind them
of which nothing is known, and leaves such a cell in front of them. -/
theorem insertLoop_spec {p : Ptr} (xs zs : List T) :
    ∀ {h : Arrays T} (o : Option T) (rest : List (Option T)) (movePos : UInt32),
      h.cell p = some (xs.map some ++ (zs.map some ++ o :: rest)) →
      movePos.toNat = xs.length + zs.length →
      ∃ h' o', insertLoop p zs.length movePos h = some h' ∧
        h'.cell p = some (xs.map some ++ o' :: (zs.map some ++ rest)) := by
  induction zs using List.reverseRecOn with
  | nil =>
      intro h o rest movePos hcell _
      exact ⟨h, o, rfl, hcell⟩
  | append_singleton zs z ih =>
      intro h o rest movePos hcell hpos
      rw [List.length_append, List.length_singleton] at hpos ⊢
      have hpred : (movePos - 1).toNat = xs.length + zs.length := by
        rw [toNat_pred hpos (by omega)]
        rfl
      have hread : h.get p (movePos - 1).toNat = some z := by
        refine Arrays.get_spec hcell ?_
        rw [hpred, List.getElem?_append_right (by simp)]
        simp
      obtain ⟨h1, hset, hcell1, -⟩ := Arrays.set_spec hcell (i := movePos.toNat) (by
        rw [hpos]
        simp) z
      have hmoved : h1.cell p =
          some (xs.map some ++ (zs.map some ++ some z :: (some z :: rest))) := by
        rw [hcell1, hpos, List.set_append_right _ _ (by simp)]
        simp
      obtain ⟨h', o', hloop, hcell'⟩ := ih _ _ _ hmoved hpred
      refine ⟨h', o', ?_, ?_⟩
      · simp only [insertLoop, hread, hset, hloop, Option.bind_eq_bind, Option.bind_some]
      · rw [hcell', List.map_append, List.append_assoc]
        rfl

/-- An array without room for it stops the loop at its first element. -/
theorem insertLoop_none {p : Ptr} {n count : Nat} {movePos : UInt32} {h : Arrays T}
    (b : h.Begins p n ts) (hsmall : n ≤ movePos.toNat) :
    insertLoop p (count + 1) movePos h = none := by
  unfold insertLoop
  cases h.get p (movePos - 1).toNat with
  | none => rfl
  | some t => simp only [b.set_none hsmall, Option.bind_eq_bind, Option.bind_some, Option.bind_none]

/-- `insert` behind its guard and its assertion. -/
theorem insert_eq (s : Stored σ ts) (hroom : σ.2.size < maxSize) {pos : UInt32}
    (hpos : pos ≤ σ.2.size) (t : T) :
    σ.2.insert build σ.1 pos t = (Vector.makeRoom σ).bind (fun τ =>
      (insertLoop τ.2.element (τ.2.size - pos).toNat τ.2.size τ.1).bind (fun h =>
        (h.set τ.2.element pos.toNat t).bind
          (fun h => some ((h, { τ.2 with size := τ.2.size + 1 }), .done)))) := by
  have hguard : ¬ pos > σ.2.size + 1 := by
    have hpos' := UInt32.le_iff_toNat_le.mp hpos
    rw [s.counted] at hpos'
    show ¬ σ.2.size + 1 < pos
    rw [UInt32.lt_iff_toNat_lt, s.toNat_succ_size hroom]
    omega
  unfold insert
  simp only [if_neg hguard, if_neg (s.not_stops hroom)]
  rfl

/-- Where there is room the loop of `insert` frees the cell at the position, and an element
assigned to it is in its place. -/
theorem shift (s : Stored σ ts) (hlt : ts.length < σ.2.capacity.toNat) {pos : UInt32}
    (hpos : pos.toNat ≤ ts.length) :
    ∃ h1, insertLoop σ.2.element (σ.2.size - pos).toNat σ.2.size σ.1 = some h1 ∧
      ∀ t, ∃ h2, h1.set σ.2.element pos.toNat t = some h2 ∧
        h2.Begins σ.2.element σ.2.capacity.toNat
          (ts.take pos.toNat ++ t :: ts.drop pos.toNat) := by
  obtain ⟨rest, hcell, hlength⟩ := s.begins.cell (Nat.zero_lt_of_lt hlt)
  cases rest with
  | nil =>
      rw [List.length_nil] at hlength
      omega
  | cons o rest =>
      have hle : pos ≤ σ.2.size := by
        rw [UInt32.le_iff_toNat_le, s.counted]
        exact hpos
      have hcount : (σ.2.size - pos).toNat = (ts.drop pos.toNat).length := by
        rw [UInt32.toNat_sub_of_le _ _ hle, s.counted, List.length_drop]
      have hmoved : σ.2.size.toNat = (ts.take pos.toNat).length + (ts.drop pos.toNat).length := by
        rw [s.counted, ← List.length_append, List.take_append_drop]
      have hsplit : ts.map some ++ o :: rest =
          (ts.take pos.toNat).map some ++ ((ts.drop pos.toNat).map some ++ o :: rest) := by
        rw [← List.append_assoc, ← List.map_append, List.take_append_drop]
      obtain ⟨h1, o', hloop, hcell1⟩ :=
        insertLoop_spec _ _ o rest σ.2.size (hcell.trans (congrArg some hsplit)) hmoved
      have htake : ((ts.take pos.toNat).map some).length = pos.toNat := by
        rw [List.length_map, List.length_take, Nat.min_eq_left hpos]
      refine ⟨h1, hcount ▸ hloop, fun t => ?_⟩
      obtain ⟨h2, hset, hcell2, -⟩ := Arrays.set_spec hcell1 (i := pos.toNat) (by
        rw [List.length_append, htake, List.length_cons]
        omega) t
      refine ⟨h2, hset, .inr ⟨rest, ?_, ?_⟩⟩
      · -- the cell that the loop leaves free takes the element
        rw [hcell2, List.set_append_right _ _ (Nat.le_of_eq htake), htake, Nat.sub_self,
          List.set_cons_zero, List.map_append, List.append_assoc]
        rfl
      · rw [List.length_cons] at hlength
        rw [List.length_append, List.length_cons, List.length_take, List.length_drop]
        omega

/-- The sequence with an element put in is longer by one. -/
theorem length_putIn (ts : List T) (i : Nat) (t : T) :
    (ts.take i ++ t :: ts.drop i).length = ts.length + 1 := by
  rw [List.length_append, List.length_cons, ← Nat.add_assoc, ← List.length_append,
    List.take_append_drop]

variable (build) in
theorem insert_grows (s : Stored σ ts) (hroom : σ.2.size < maxSize) (hgrows : σ.2.Grows)
    {pos : UInt32} (hpos : pos ≤ σ.2.size) (t : T) :
    ∃ τ, σ.2.insert build σ.1 pos t = some (τ, .done) ∧
      Stored τ (ts.take pos.toNat ++ t :: ts.drop pos.toNat) := by
  obtain ⟨τ, hmade, hτ, hlt, hsize, -⟩ := s.makeRoom hroom hgrows
  have hpos' : pos.toNat ≤ ts.length := s.counted ▸ UInt32.le_iff_toNat_le.mp hpos
  obtain ⟨h1, hloop, hput⟩ := hτ.shift hlt hpos'
  obtain ⟨h2, hset, hbegins⟩ := hput t
  refine ⟨(h2, { τ.2 with size := τ.2.size + 1 }), ?_, hbegins, ?_⟩
  · rw [s.insert_eq hroom hpos, hmade, Option.bind_some, hloop, Option.bind_some, hset,
      Option.bind_some]
  · show (τ.2.size + 1).toNat = _
    rw [hsize, s.toNat_succ_size hroom, length_putIn]

theorem insert_none (s : Stored σ ts) (hroom : σ.2.size < maxSize) (hgrows : ¬ σ.2.Grows)
    {pos : UInt32} (hpos : pos ≤ σ.2.size) (t : T) : σ.2.insert build σ.1 pos t = none := by
  rw [s.insert_eq hroom hpos]
  cases hmade : Vector.makeRoom σ with
  | none => rfl
  | some τ =>
      obtain ⟨hτ, hsize, hsmall⟩ := s.no_room hroom hgrows hmade
      rw [← hτ.counted] at hsmall
      rw [Option.bind_some]
      cases hcount : (τ.2.size - pos).toNat with
      | zero =>
          -- nothing moves, and the element goes behind the array
          rw [UInt32.toNat_sub_of_le _ _ (hsize ▸ hpos), hsize] at hcount
          have hend : τ.2.capacity.toNat ≤ pos.toNat := by
            rw [hsize] at hsmall
            omega
          rw [insertLoop, Option.bind_some, hτ.begins.set_none hend, Option.bind_none]
      | succ count => rw [insertLoop_none hτ.begins hsmall, Option.bind_none]

/-- Where a removal is defined a sequence is left, also where the end of the range wraps
and what is removed comes back in front of it. -/
theorem removeRange (s : Stored σ ts) {pos len : UInt32} {answer : Answer T}
    (hcall : σ.2.removeRange σ.1 pos len = some (σ', answer)) : ∃ us, Stored σ' us := by
  unfold Vector.removeRange at hcall
  by_cases hbehind : pos > σ.2.size
  · rw [if_pos hbehind] at hcall
    cases hcall
    exact ⟨ts, s⟩
  · simp only [if_neg hbehind] at hcall
    generalize hclamp : (if len + pos > σ.2.size then σ.2.size - pos else len) = removed at hcall
    have hrange : pos + removed ≤ σ.2.size := by
      rw [← hclamp]
      split
      · rw [UInt32.add_comm, UInt32.sub_add_cancel]
        exact UInt32.le_refl _
      · rename_i hle
        rw [UInt32.add_comm]
        exact UInt32.not_lt.mp hle
    have hrange' : (pos + removed).toNat ≤ ts.length :=
      s.counted ▸ UInt32.le_iff_toNat_le.mp hrange
    have hpos : pos.toNat ≤ ts.length :=
      s.counted ▸ UInt32.le_iff_toNat_le.mp (UInt32.not_lt.mp hbehind)
    have hmoved : (σ.2.size - (pos + removed)).toNat = ts.length - (pos + removed).toNat := by
      rw [UInt32.toNat_sub_of_le _ _ hrange, s.counted]
    rw [hmoved] at hcall
    cases hmove : σ.1.move σ.2.element pos.toNat σ.2.element (pos + removed).toNat
        (ts.length - (pos + removed).toNat) with
    | none =>
        rw [hmove] at hcall
        cases hcall
    | some h' =>
        rw [hmove] at hcall
        cases hcall
        have hroom := s.begins.room_of_move hpos hmove
        obtain ⟨h'', hmove', hbegins, -⟩ := s.begins.rejoin hpos hrange' hroom
        rw [hmove] at hmove'
        cases hmove'
        refine ⟨_, hbegins, ?_⟩
        -- what is left has a size that did not wrap, since it fits in the array
        show (σ.2.size - removed).toNat = _
        have hleft : σ.2.size - removed = pos + (σ.2.size - (pos + removed)) := by grind
        have hcapacity := UInt32.toNat_lt σ.2.capacity
        rw [hleft, UInt32.toNat_add, hmoved, List.length_append, List.length_take,
          List.length_drop]
        omega

/-- The growth code makes room exactly where the step does. -/
theorem roomMade_iff (s : Stored σ ts) (hroom : σ.2.size < maxSize) :
    RoomMade σ ↔ σ.2.Grows := by
  constructor
  · rintro ⟨τ, hmade, hlarger, -⟩
    by_contra hgrows
    obtain ⟨-, hsize, hsmall⟩ := s.no_room hroom hgrows hmade
    rw [hsize, UInt32.le_iff_toNat_le, s.toNat_succ_size hroom] at hlarger
    omega
  · intro hgrows
    obtain ⟨τ, hmade, -, hlarger, hsize, hbound⟩ := s.makeRoom hroom hgrows
    refine ⟨τ, hmade, ?_, hbound⟩
    rw [hsize, UInt32.le_iff_toNat_le, s.toNat_succ_size hroom]
    exact hlarger

theorem clear (s : Stored σ ts) :
    ∃ τ, σ.2.clear σ.1 = some τ ∧ Stored τ [] := by
  obtain ⟨h', hclear, -⟩ := clear_spec s.begins
  exact ⟨(h', _), hclear, Arrays.begins_null h', rfl⟩

end Stored

/-! ## Runs -/

/-- A call leaves a stored sequence where it is defined. -/
theorem stored_edit (s : Stored σ ts) {e : Edit T} (hfits : σ.2.EditFits e) {answer : Answer T}
    (hcall : edit build σ e = some (σ', answer)) : ∃ us, Stored σ' us := by
  cases e with
  | append t =>
      have hcall : σ.2.append build σ.1 t = some (σ', answer) := hcall
      by_cases hgrows : σ.2.Grows
      · obtain ⟨τ, happend, hτ⟩ := s.append_grows build hfits hgrows t
        rw [happend] at hcall
        cases hcall
        exact ⟨_, hτ⟩
      · rw [s.append_none hfits hgrows] at hcall
        cases hcall
  | insert pos t =>
      have hcall : σ.2.insert build σ.1 pos t = some (σ', answer) := hcall
      by_cases hgrows : σ.2.Grows
      · obtain ⟨τ, hinsert, hτ⟩ := s.insert_grows build hfits.1 hgrows hfits.2 t
        rw [hinsert] at hcall
        cases hcall
        exact ⟨_, hτ⟩
      · rw [s.insert_none hfits.1 hgrows hfits.2] at hcall
        cases hcall
  | removeAt pos => exact s.removeRange hcall
  | removeRange pos len => exact s.removeRange hcall
  | clear =>
      obtain ⟨τ, hclear, hτ⟩ := s.clear
      have hcall : (σ.2.clear σ.1).map (·, Answer.done) = some (σ', answer) := hcall
      rw [hclear] at hcall
      cases hcall
      exact ⟨[], hτ⟩
  | setStep step =>
      cases hcall
      exact ⟨ts, s.begins, s.counted⟩

/-- In every state a vector gets into it holds some sequence. -/
theorem reachable_stored (hσ : (edits build T).Reachable σ) : ∃ ts, Stored σ ts := by
  refine TSys.Inductive.invariant (I := fun σ => ∃ ts, Stored σ ts) ⟨?_, ?_⟩ σ hσ
  · rintro ⟨h, v⟩ ⟨capacity, hnew⟩
    unfold construct at hnew
    split at hnew
    · cases hnew
    · cases hnew
      exact ⟨[], Arrays.begins_new _ _, rfl⟩
  · rintro σ e σ' ⟨ts, s⟩ ⟨hfits, answer, hcall⟩
    exact stored_edit s hfits hcall

/-- With room for it an element is appended, and the array stays. -/
theorem Stored.append_room (s : Stored σ ts) (build : Build) (hroom : σ.2.size < maxSize)
    (hlt : ts.length < σ.2.capacity.toNat) (t : T) :
    ∃ h', σ.2.append build σ.1 t = some ((h', { σ.2 with size := σ.2.size + 1 }), .done) ∧
      Stored (h', { σ.2 with size := σ.2.size + 1 }) (ts ++ [t]) := by
  have hfull : ¬ σ.2.size + 1 > σ.2.capacity := by
    rw [s.full_iff hroom]
    omega
  obtain ⟨h', hset, hpush, -⟩ := s.begins.push hlt t
  rw [← s.counted] at hset
  refine ⟨h', ?_, hpush, ?_⟩
  · rw [s.append_eq hroom, Vector.makeRoom, if_neg hfull, Option.bind_some, hset,
      Option.bind_some]
  · rw [List.length_append]
    exact s.toNat_succ_size hroom

/-- Every sequence that fits into a capacity is held by some vector of that capacity and with
the default step. -/
theorem reachable_filled (build : Build) {n : UInt32} (hn : n ≤ maxSize) (ts : List T) :
    ts.length ≤ n.toNat →
      ∃ σ, (edits build T).Reachable σ ∧ Stored σ ts ∧ σ.2.capacity = n ∧
        σ.2.step = stepUint := by
  have hn' : n.toNat ≤ maxSize.toNat := UInt32.le_iff_toNat_le.mp hn
  induction ts using List.reverseRecOn with
  | nil =>
      intro _
      have hnew : construct build (Heap.empty : Arrays T) n =
          ((Arrays.new .empty n.toNat).2, some
            { element := (Arrays.new (α := T) .empty n.toNat).1, size := 0, step := stepUint,
              capacity := n }) :=
        if_neg (fun hstops => hstops.2 hn)
      exact ⟨(_, _), .init ⟨n, hnew⟩, ⟨Arrays.begins_new _ _, rfl⟩, rfl, rfl⟩
  | append_singleton ts t ih =>
      intro hlength
      rw [List.length_append, List.length_singleton] at hlength
      obtain ⟨σ, hreach, s, hcapacity, hstep⟩ := ih (by omega)
      have hroom : σ.2.size < maxSize := by
        rw [UInt32.lt_iff_toNat_lt, s.counted]
        omega
      obtain ⟨h', happend, s'⟩ :=
        s.append_room build hroom (by rw [hcapacity]; omega) t
      have hcall : (edits build T).step σ (.append t) _ := ⟨hroom, .done, happend⟩
      exact ⟨_, hreach.step hcall, s', hcapacity, hstep⟩

/-- **Growth.** Whatever calls a vector has seen, the next `append` or `insert` makes
room for its element and stays inside the array exactly if the vector is not full, or its
step is neither zero nor makes the new capacity wrap. -/
theorem growsSafely_iff (hσ : (edits build T).Reachable σ) {e : Edit T}
    (hfits : σ.2.EditFits e) : GrowsSafely build σ e ↔ σ.2.GrowthFits e := by
  obtain ⟨ts, s⟩ := reachable_stored hσ
  cases e with
  | append t =>
      show RoomMade σ ∧ _ ↔ σ.2.Grows
      rw [s.roomMade_iff hfits, and_iff_left_iff_imp]
      intro hgrows
      obtain ⟨τ, happend, -⟩ := s.append_grows build hfits hgrows t
      rw [happend]
      rfl
  | insert pos t =>
      show RoomMade σ ∧ _ ↔ σ.2.Grows
      rw [s.roomMade_iff hfits.1, and_iff_left_iff_imp]
      intro hgrows
      obtain ⟨τ, hinsert, -⟩ := s.insert_grows build hfits.1 hgrows hfits.2 t
      rw [hinsert]
      rfl
  | removeAt pos => exact Iff.rfl
  | removeRange pos len => exact Iff.rfl
  | clear => exact Iff.rfl
  | setStep step => exact Iff.rfl

end Stored

/-- A vector constructed without elements, with a step set by the client. -/
def emptyWithStep (step : UInt32) : State Nat :=
  ((Arrays.new .empty 0).2,
    { element := (Arrays.new (α := Nat) .empty 0).1, size := 0, step := step, capacity := 0 })

theorem reachable_emptyWithStep (build : Build) (step : UInt32) :
    (edits build Nat).Reachable (emptyWithStep step) := by
  have hnew : (edits build Nat).Reachable (emptyWithStep stepUint) := by
    refine .init ⟨0, ?_⟩
    exact if_neg (fun hstops => hstops.2 (by decide))
  have hset : (edits build Nat).step (emptyWithStep stepUint) (.setStep step)
      (emptyWithStep step) := ⟨trivial, .done, rfl⟩
  exact .step hnew hset

theorem growsSafely_iff_step_three : GrowsSafely .debug (emptyWithStep 3) (.append 7) :=
  (growsSafely_iff (reachable_emptyWithStep .debug 3) (by decide)).mpr (fun _ => by decide)

/-- With a step of zero the array that `append` makes has no room for its element. -/
theorem append_overruns : (edits .release Nat).Reachable (emptyWithStep 0) ∧
    (emptyWithStep 0).2.EditFits (.append 7) ∧
    ¬ GrowsSafely .release (emptyWithStep 0) (.append 7) := by
  refine ⟨reachable_emptyWithStep .release 0, by decide, ?_⟩
  rintro ⟨-, hdefined⟩
  exact absurd hdefined (by decide)

end LearnSpace.DataStructure.Vector
