import LearnSpace.KvStore.ByteArrayValue

/-!
# Terminators

Nothing writes a terminator behind the bytes of an array. A zero byte stands
there as long as the buffer has room for one more byte, since what is behind the
bytes is zero. The constructor from a C string leaves no such room; an append
leaves none when it just fills the buffer.
-/

namespace LearnSpace.KvStore

open Keel Function

variable {ι : Type} {σ σ' : Pool ι} {x : ι}

/-- `constData()` is a C string: the buffer has a zero byte at index `size()`,
and what is read up to the first zero is in the buffer and within the size. -/
def CString (σ : Pool ι) (x : ι) : Prop :=
  ∃ b, σ.data.heap.cell (σ.data.holder x) = some b ∧ b[σ.size x]? = some 0 ∧
    strlen b < b.length ∧ strlen b ≤ σ.size x

/-- A zero byte ends the C string there or before. -/
theorem strlen_le_of_zero {b : List Byte} {i : Nat} (h : b[i]? = some 0) : strlen b ≤ i := by
  induction b generalizing i with
  | nil => cases h
  | cons c b ih =>
      cases i with
      | zero =>
          obtain rfl : c = 0 := by simpa using h
          simp [strlen]
      | succ i =>
          have hle := ih (i := i) (by simpa using h)
          simp only [strlen, List.takeWhile_cons] at hle ⊢
          split
          · exact Nat.succ_le_succ hle
          · exact Nat.zero_le _

namespace Pool

/-- Behind the bytes there is a zero if the capacity has room for one. -/
theorem Stored.cstring_iff {bs : List Byte} (h : σ.Stored x bs) :
    CString σ x ↔ σ.size x < σ.capacity x := by
  have hfits := h.fits
  have hsize := h.size
  constructor
  · rintro ⟨b, hb, hzero, -⟩
    rcases h.buffer with ⟨hnull, -⟩ | hcell
    · exact absurd hnull (Heap.ne_null _ hb)
    · rw [hcell] at hb
      cases hb
      have hlt := (List.getElem?_eq_some_iff.mp hzero).1
      rwa [length_filled hfits] at hlt
  · intro hlt
    rcases h.buffer with ⟨-, hcapacity⟩ | hcell
    · omega
    · have hzero : (filled bs (σ.capacity x))[σ.size x]? = some 0 := by
        rw [filled, hsize, List.getElem?_append_right (Nat.le_refl _), Nat.sub_self,
          List.getElem?_replicate, if_pos (by omega)]
      have hle := strlen_le_of_zero hzero
      refine ⟨_, hcell, hzero, ?_, hle⟩
      rw [length_filled hfits]
      omega

/-- Without a buffer there is no capacity. -/
theorem Stored.capacity_of_null {bs : List Byte} (h : σ.Stored x bs)
    (hnull : σ.data.holder x = null) : σ.capacity x = 0 := by
  rcases h.buffer with ⟨-, hcapacity⟩ | hcell
  · exact hcapacity
  · exact absurd hnull (Heap.ne_null _ hcell)

/-- Every variable has some bytes. -/
def Held (σ : Pool ι) : Prop := ∀ x, ∃ bs, σ.Stored x bs

/-- Every buffer has room for a terminator. -/
def Room (σ : Pool ι) : Prop := ∀ x, σ.data.holder x ≠ null → σ.size x < σ.capacity x

end Pool

/-- The calls the claim is about: constructors, copies, moves, `append` and
`remove`. -/
def Builds : Call ι → Prop
  | .clear _ => False
  | .squeeze _ => False
  | .detach _ => False
  | .write _ _ _ _ => False
  | _ => True

/-- An append of `len` bytes does not just fill the buffer, and is not the one
byte for which an array without a buffer gets a buffer of one byte. -/
def AppendRoom (σ : Pool ι) (x : ι) (len : Nat) : Prop :=
  σ.size x + len ≠ σ.capacity x ∧ (σ.capacity x = 0 → len ≠ 1)

/-- The calls that leave room for a terminator. -/
def LeavesRoom (σ : Pool ι) : Call ι → Prop
  | .constructCapacity _ capacity => 0 < capacity
  | .constructStr _ _ => False
  | .appendBytes x bytes => AppendRoom σ x bytes.length
  | .appendStr x str => AppendRoom σ x (strlen str)
  | .append x str => AppendRoom σ x (σ.size str)
  | .remove x pos _ => pos ≤ σ.size x → 0 < σ.capacity x
  | _ => True

/-- What the growth leaves behind the bytes. -/
theorem grown_room_iff {capacity size len : Nat}
    (h : size < capacity ∨ (capacity = 0 ∧ size = 0)) :
    size + len < grown capacity size len ↔
      size + len ≠ capacity ∧ (capacity = 0 → len ≠ 1) := by
  rw [grown]
  split
  · have hstep : capacity + len ≤ stepCapacity (capacity + len) := Double.le_timesThreeHalves _
    rcases h with hlt | ⟨rfl, rfl⟩
    · omega
    · rcases Nat.lt_or_ge len 2 with hlen | hlen
      · obtain rfl : len = 1 := by omega
        exact iff_of_false (by decide) (fun h => h.2 rfl rfl)
      · have hlt : 0 + len < stepCapacity (0 + len) := Double.lt_timesThreeHalves (by omega)
        omega
  · omega

namespace Pool

variable [Fintype ι] [DecidableEq ι] {other : ι} {bs : List Byte} {n : Nat}

omit [Fintype ι] [DecidableEq ι] in
theorem Held.others (h : σ.Held) (x : ι) : σ.Others x := fun y _ => h y

theorem Held.makes (h : σ.Held) (hm : Makes x bs n σ σ') : σ'.Held := by
  intro y
  by_cases hy : y = x
  · exact ⟨bs, hy ▸ hm.stored⟩
  · obtain ⟨cs, hs⟩ := h y
    exact ⟨cs, hm.frame.stored hy hs⟩

/-- A method leaves room if and only if it leaves room in its own variable. -/
theorem Room.makes_iff (h : σ.Room) (hm : Makes x bs n σ σ') : σ'.Room ↔ bs.length < n := by
  constructor
  · intro hroom
    have := hroom x (Shared.unique_iff.mp hm.own).1
    rwa [hm.stored.size, hm.capacity] at this
  · intro hlt y hne
    by_cases hy : y = x
    · rw [hy, hm.stored.size, hm.capacity]
      exact hlt
    · rw [hm.frame.size y hy, hm.frame.capacity y hy]
      rw [hm.frame.holder y hy] at hne
      exact h y hne

/-- Copies and moves hand on what another variable has, or nothing. -/
theorem assign_room (hheld : σ.Held) (hroom : σ.Room) {p : Ptr} {size capacity : Nat}
    (hp : (p = null ∧ size = 0 ∧ capacity = 0) ∨ ∃ y, p = σ.data.holder y ∧
      size = σ.size y ∧ capacity = σ.capacity y) :
    Held { data := σ.data.assign x p, size := update σ.size x size,
           capacity := update σ.capacity x capacity } ∧
      Room { data := σ.data.assign x p, size := update σ.size x size,
             capacity := update σ.capacity x capacity } := by
  have hf := Frame.assign x σ p size capacity
  have hholder : (σ.data.assign x p).holder x = p := by
    rw [Shared.assign_holder, update_self]
  constructor
  · intro y
    by_cases hy : y = x
    · subst hy
      rcases hp with ⟨rfl, rfl, rfl⟩ | ⟨z, rfl, rfl, rfl⟩
      · exact ⟨[], update_self .., Nat.zero_le _, .inl ⟨hholder, update_self ..⟩⟩
      · obtain ⟨cs, hs⟩ := hheld z
        have hcapacity : update σ.capacity y (σ.capacity z) y = σ.capacity z := update_self ..
        refine ⟨cs, (update_self ..).trans hs.size, ?_, ?_⟩
        · exact hs.fits.trans_eq hcapacity.symm
        · refine hs.buffer.imp (fun h => ⟨hholder.trans h.1, hcapacity.trans h.2⟩) ?_
          intro hcell
          show (σ.data.assign y (σ.data.holder z)).heap.cell
            ((σ.data.assign y (σ.data.holder z)).holder y) = _
          rw [Shared.assign_cell_of_held (y := y) rfl (by rw [hholder]; exact Heap.ne_null _ hcell),
            hholder, hcell]
          exact congrArg (fun n => some (filled cs n)) hcapacity.symm
    · obtain ⟨cs, hs⟩ := hheld y
      exact ⟨cs, hf.stored hy hs⟩
  · intro y hne
    by_cases hy : y = x
    · subst hy
      have hsome : p ≠ null := fun hnull => hne (hholder.trans hnull)
      show update σ.size y size y < update σ.capacity y capacity y
      rw [update_self, update_self]
      rcases hp with ⟨rfl, -, -⟩ | ⟨z, rfl, rfl, rfl⟩
      · exact absurd rfl hsome
      · exact hroom z hsome
    · rw [hf.holder y hy] at hne
      rw [hf.size y hy, hf.capacity y hy]
      exact hroom y hne

theorem copyFrom_room (hheld : σ.Held) (hroom : σ.Room) (x other : ι) :
    (σ.copyFrom x other).Held ∧ (σ.copyFrom x other).Room :=
  assign_room hheld hroom (.inr ⟨other, rfl, rfl, rfl⟩)

theorem release_room (hheld : σ.Held) (hroom : σ.Room) (x : ι) :
    (σ.release x).Held ∧ (σ.release x).Room :=
  assign_room hheld hroom (.inl ⟨rfl, rfl, rfl⟩)

theorem moveFrom_room (hheld : σ.Held) (hroom : σ.Room) (x other : ι) :
    (σ.moveFrom x other).Held ∧ (σ.moveFrom x other).Room :=
  have h := copyFrom_room hheld hroom x other
  release_room h.1 h.2 other

/-! ## An append of a variable to itself -/

theorem resetBuffer_data (h : σ.resetBuffer x = some σ') :
    ∃ buffer, σ'.data = σ.data.fresh x buffer := by
  simp only [resetBuffer, Option.bind_eq_bind, Option.bind_eq_some_iff] at h
  obtain ⟨_, -, buffer, -, h⟩ := h
  cases h
  exact ⟨buffer, rfl⟩

/-- A buffer that is outgrown and not shared is freed before it is read. -/
theorem append_self_freed (ho : σ.Others x) (hs : σ.Stored x bs)
    (hown : σ.data.unique x = true) (hgrow : σ.size x + σ.size x > σ.capacity x) :
    σ.append x x = none := by
  have hfits := hs.fits
  have hsize := hs.size
  obtain ⟨σ₁, hreset, hmakes⟩ := resetBuffer_resize_spec ho hs
    (stepCapacity (σ.capacity x + σ.size x)) (hfits.trans (le_stepCapacity _ _))
  obtain ⟨buffer, hfresh⟩ := resetBuffer_data hreset
  have hfreed : σ₁.data.heap.cell (σ.data.holder x) = none := by
    rw [hfresh]
    exact Shared.fresh_cell_old hown (hs.cell hown)
  have hroom : σ.makeRoom x (σ.size x) = some σ₁ := by
    rw [makeRoom, if_pos hgrow, hreset]
    simp only [Option.bind_eq_bind, Option.bind_some, detach, hmakes.own, if_true]
  have hread : readAt σ₁.data.heap (σ.data.holder x) 0 (σ.size x) = none := by
    rw [readAt, if_neg (by omega)]
    simp only [Heap.load, hfreed, Option.bind_eq_bind, Option.bind_none]
  rw [append, insertElement, if_neg (by simp), hroom]
  simp only [Option.bind_eq_bind, Option.bind_some, hmakes.stored.size, hsize, Nat.sub_self]
  simp only [readAt, writeAt, if_true, Option.bind_some, Source.read]
  rw [← readAt, ← hsize, hread]
  rfl

/-- Otherwise the bytes are read from the buffer that is appended to, or from
the old one, which some other variable has. -/
theorem append_self_spec (ho : σ.Others x) (hs : σ.Stored x bs)
    (hroom : σ.data.unique x = true → σ.size x + σ.size x ≤ σ.capacity x) :
    ∃ σ', σ.append x x = some (σ', .done) ∧
      Makes x (bs ++ bs) (grown (σ.capacity x) bs.length bs.length) σ σ' := by
  have hsize := hs.size
  suffices hspec : ∃ σ', σ.insertElement x (σ.size x) (.buffer (σ.data.holder x) 0) bs.length
      = some (σ', .done) ∧
      Makes x (bs ++ bs) (grown (σ.capacity x) bs.length bs.length) σ σ' by
    simpa only [append, hsize] using hspec
  refine insertElement_room_spec ho hs (fun σ₁ hmake hmakes => ?_)
  by_cases hown : σ.data.unique x = true
  · have hsame : σ₁ = σ := by
      rw [makeRoom, if_neg (by have := hroom hown; omega)] at hmake
      have hdetach : σ.detach x = some σ₁ := hmake
      rw [detach, if_pos hown] at hdetach
      cases hdetach
      rfl
    rw [hsame, ← hsize]
    exact hs.read
  · rcases hs.buffer with ⟨-, hcapacity⟩ | hcell
    · have hnil : bs = [] := List.eq_nil_of_length_eq_zero (by have := hs.fits; omega)
      rw [hnil]
      rfl
    · have hshared : ¬ ∀ z, z ≠ x → σ.data.holder z ≠ σ.data.holder x := by
        intro hall
        exact hown (Shared.unique_iff.mpr ⟨Heap.ne_null _ hcell, hall⟩)
      push Not at hshared
      obtain ⟨z, hz, hsame⟩ := hshared
      have hkept := hmakes.frame.cell z _ hz (by rw [hsame, hcell])
      rw [hsame] at hkept
      show readAt σ₁.data.heap (σ.data.holder x) 0 bs.length = some bs
      rw [readAt_eq hkept (by rw [length_filled hs.fits]; have := hs.fits; omega),
        List.drop_zero, filled, List.take_left]

end Pool

/-! ## Calls and runs -/

variable [Fintype ι] [DecidableEq ι]

omit [Fintype ι] [DecidableEq ι] in
/-- Where a variable stands: it has room, or no buffer. -/
theorem Pool.room_cases (hheld : σ.Held) (hroom : σ.Room) (x : ι) :
    σ.size x < σ.capacity x ∨ (σ.capacity x = 0 ∧ σ.size x = 0) := by
  obtain ⟨bs, hs⟩ := hheld x
  by_cases hnull : σ.data.holder x = null
  · have := hs.capacity_of_null hnull
    have := hs.fits
    have := hs.size
    omega
  · exact .inl (hroom x hnull)

/-- What a call on arrays that have room comes to. It leaves room if and only if
`LeavesRoom` says so; an append of an array to itself may also read a buffer that is
freed. -/
def RoomDecided (σ : Pool ι) (c : Call ι) : Prop :=
  (∃ σ' o, (byteArrays ι).exec σ c = some (σ', o) ∧ σ'.Held ∧ (σ'.Room ↔ LeavesRoom σ c)) ∨
    ((byteArrays ι).exec σ c = none ∧ LeavesRoom σ c)

section Decided

variable {c : Call ι} {o : Outcome} {bs : List Byte} {n : Nat}

/-- A method on `x` that makes `bs` in a buffer of `n` bytes. -/
theorem RoomDecided.of_makes (hheld : σ.Held) (hroom : σ.Room)
    (hexec : (byteArrays ι).exec σ c = some (σ', o)) (hm : Pool.Makes x bs n σ σ')
    (hiff : bs.length < n ↔ LeavesRoom σ c) : RoomDecided σ c :=
  .inl ⟨σ', o, hexec, hheld.makes hm, (hroom.makes_iff hm).trans hiff⟩

/-- A call that always leaves room. -/
theorem RoomDecided.of_room (hexec : (byteArrays ι).exec σ c = some (σ', o))
    (h : σ'.Held ∧ σ'.Room) (hleaves : LeavesRoom σ c) : RoomDecided σ c :=
  .inl ⟨σ', o, hexec, h.1, iff_of_true h.2 hleaves⟩

omit [Fintype ι] [DecidableEq ι] in
/-- The room behind what was appended. -/
theorem appended_iff (hheld : σ.Held) (hroom : σ.Room) (hs : σ.Stored x bs) (d : List Byte) :
    (bs ++ d).length < grown (σ.capacity x) bs.length d.length ↔ AppendRoom σ x d.length := by
  have hcases := Pool.room_cases hheld hroom x
  rw [hs.size] at hcases
  rw [List.length_append, AppendRoom, hs.size]
  exact grown_room_iff hcases

theorem append_decided (hheld : σ.Held) (hroom : σ.Room) (x str : ι) :
    RoomDecided σ (.append x str) := by
  obtain ⟨bs, hs⟩ := hheld x
  by_cases hself : str = x
  · subst hself
    by_cases hin : σ.data.unique str = true → σ.size str + σ.size str ≤ σ.capacity str
    · obtain ⟨σ', hexec, hm⟩ := Pool.append_self_spec (hheld.others str) hs hin
      refine .of_makes hheld hroom hexec hm ((appended_iff hheld hroom hs bs).trans ?_)
      rw [LeavesRoom, hs.size]
    · push Not at hin
      refine .inr ⟨Pool.append_self_freed (hheld.others str) hs hin.1 hin.2, ?_⟩
      have := hs.fits
      have := hs.size
      exact ⟨by omega, by omega⟩
  · obtain ⟨cs, hs'⟩ := hheld str
    obtain ⟨σ', hexec, hm⟩ := Pool.append_spec (hheld.others x) hs hs' (.inl hself)
    refine .of_makes hheld hroom hexec hm ((appended_iff hheld hroom hs cs).trans ?_)
    rw [LeavesRoom, hs'.size]

theorem remove_decided (hheld : σ.Held) (hroom : σ.Room) (x : ι) (pos len : Nat) :
    RoomDecided σ (.remove x pos len) := by
  obtain ⟨bs, hs⟩ := hheld x
  have hsize := hs.size
  by_cases hpos : pos ≤ σ.size x
  · obtain ⟨σ', hexec, hm⟩ := Pool.reomveElement_spec (hheld.others x) hs len (hsize ▸ hpos)
    refine .of_makes hheld hroom hexec hm ?_
    have hle : (bs.take pos ++ bs.drop (pos + len)).length ≤ bs.length := by
      rw [List.length_append, List.length_take, List.length_drop]
      omega
    have hcases := Pool.room_cases hheld hroom x
    show _ ↔ (pos ≤ σ.size x → 0 < σ.capacity x)
    constructor
    · intro hlt _
      omega
    · intro hpositive
      have := hpositive hpos
      omega
  · have hexec : (byteArrays ι).exec σ (.remove x pos len) = some (σ, .outOfRange) := by
      show σ.reomveElement x pos len = _
      rw [Pool.reomveElement, if_pos hpos]
      rfl
    exact .of_room hexec ⟨hheld, hroom⟩ (fun h => absurd h hpos)

/-- One call on arrays that have room. -/
theorem exec_room (hheld : σ.Held) (hroom : σ.Room) (hbuilds : Builds c) : RoomDecided σ c := by
  cases c with
  | construct x =>
      obtain ⟨σ', hexec, hm⟩ := Pool.constructCapacity_spec (hheld.others x) defInitCapacity
      exact .of_makes hheld hroom (congrArg (Option.map _) hexec) hm
        (iff_of_true (by decide) trivial)
  | constructCapacity x capacity =>
      obtain ⟨σ', hexec, hm⟩ := Pool.constructCapacity_spec (hheld.others x) capacity
      exact .of_makes hheld hroom (congrArg (Option.map _) hexec) hm Iff.rfl
  | constructPtrLen x bytes =>
      obtain ⟨σ', hexec, hm⟩ := Pool.construct_insert_spec (hheld.others x) (bytes.length + 1)
        (read_bytes bytes)
      refine .of_makes hheld hroom hexec hm (iff_of_true ?_ trivial)
      rw [grown, if_neg (by omega)]
      omega
  | constructStr x str =>
      obtain ⟨σ', hexec, hm⟩ := Pool.construct_insert_spec (hheld.others x) (strlen str)
        (read_str str)
      refine .of_makes hheld hroom hexec hm (iff_of_false ?_ id)
      have hlength : (str.takeWhile (· ≠ 0)).length = strlen str := rfl
      rw [grown, if_neg (by omega)]
      omega
  | copyConstruct x other | copyAssign x other =>
      exact .of_room rfl (Pool.copyFrom_room hheld hroom x other) trivial
  | moveConstruct x other | moveAssign x other =>
      exact .of_room rfl (Pool.moveFrom_room hheld hroom x other) trivial
  | destroy x => exact .of_room rfl (Pool.release_room hheld hroom x) trivial
  | appendBytes x bytes =>
      obtain ⟨bs, hs⟩ := hheld x
      obtain ⟨σ', hexec, hm⟩ := Pool.insertElement_spec (hheld.others x) hs
        (fun _ _ => read_bytes bytes _)
      exact .of_makes hheld hroom hexec hm (appended_iff hheld hroom hs bytes)
  | appendStr x str =>
      obtain ⟨bs, hs⟩ := hheld x
      obtain ⟨σ', hexec, hm⟩ := Pool.insertElement_spec (hheld.others x) hs
        (fun _ _ => read_str str _)
      exact .of_makes hheld hroom hexec hm (appended_iff hheld hroom hs _)
  | append x str => exact append_decided hheld hroom x str
  | remove x pos len => exact remove_decided hheld hroom x pos len
  | clear x => exact hbuilds.elim
  | squeeze x => exact hbuilds.elim
  | detach x => exact hbuilds.elim
  | write entry x pos b => exact hbuilds.elim

end Decided

omit [Fintype ι] [DecidableEq ι] in
theorem held_room_empty : (Pool.empty : Pool ι).Held ∧ (Pool.empty : Pool ι).Room :=
  ⟨fun _ => ⟨[], rfl, Nat.le_refl _, .inl ⟨rfl, rfl⟩⟩, fun _ hne => absurd rfl hne⟩

/-- Every array that has a buffer is a C string. -/
def CStrings (σ : Pool ι) : Prop := ∀ x, σ.data.holder x ≠ null → CString σ x

omit [Fintype ι] [DecidableEq ι] in
theorem Pool.Held.cstrings_iff_room (h : σ.Held) : CStrings σ ↔ σ.Room := by
  refine forall_congr' fun x => imp_congr_right fun _ => ?_
  obtain ⟨bs, hs⟩ := h x
  exact hs.cstring_iff

/-- **C strings.** Along every run of constructors, copies, moves, appends and
removals that leave room, `constData()` of every array with a buffer is a C
string; and from each state such a run reaches, one of these calls keeps this if
and only if it leaves room. -/
theorem cstrings_iff
    (hσ : ((byteArrays ι).toTSys (fun σ c => Builds c ∧ LeavesRoom σ c)).Reachable σ) :
    CStrings σ ∧ ∀ c, Builds c →
      ((∀ σ' o, (byteArrays ι).exec σ c = some (σ', o) → CStrings σ') ↔ LeavesRoom σ c) := by
  have hinvariant : ((byteArrays ι).toTSys (fun σ c => Builds c ∧ LeavesRoom σ c)).Invariant
      (fun σ => σ.Held ∧ σ.Room) := by
    apply TSys.Inductive.invariant
    refine ⟨?_, ?_⟩
    · rintro σ rfl
      exact held_room_empty
    · rintro σ c σ' ⟨hheld, hroom⟩ ⟨⟨hbuilds, hleaves⟩, o, hexec⟩
      rcases exec_room hheld hroom hbuilds with ⟨τ, o', heq, hheld', hiff⟩ | ⟨hnone, -⟩
      · rw [heq] at hexec
        cases hexec
        exact ⟨hheld', hiff.mpr hleaves⟩
      · rw [hnone] at hexec
        cases hexec
  obtain ⟨hheld, hroom⟩ := hinvariant σ hσ
  refine ⟨hheld.cstrings_iff_room.mpr hroom, fun c hbuilds => ?_⟩
  rcases exec_room hheld hroom hbuilds with ⟨σ', o, heq, hheld', hiff⟩ | ⟨hnone, hleaves⟩
  · rw [← hiff, ← hheld'.cstrings_iff_room]
    constructor
    · intro h
      exact h σ' o heq
    · rintro h τ o' hexec
      rw [heq] at hexec
      cases hexec
      exact h
  · refine iff_of_true (fun σ' o hexec => ?_) hleaves
    rw [hnone] at hexec
    cases hexec

/-- `CMByteArray a("A", 1);` -/
theorem cstrings_iff_constructed :
    ∃ σ o, (byteArrays (Fin 1)).exec .empty (.constructPtrLen 0 [65]) = some (σ, o) ∧
      CStrings σ ∧ ∀ c, Builds c →
        ((∀ σ' o, (byteArrays (Fin 1)).exec σ c = some (σ', o) → CStrings σ') ↔
          LeavesRoom σ c) := by
  obtain ⟨⟨σ, o⟩, hexec⟩ := Option.isSome_iff_exists.mp
    (show ((byteArrays (Fin 1)).exec .empty (.constructPtrLen 0 [65])).isSome by decide)
  have hstep : ((byteArrays (Fin 1)).toTSys (fun σ c => Builds c ∧ LeavesRoom σ c)).step
      .empty (.constructPtrLen 0 [65]) σ := ⟨⟨trivial, trivial⟩, o, hexec⟩
  exact ⟨σ, o, hexec, cstrings_iff (.step (.init rfl) hstep)⟩

/-- `CMByteArray a("0");`, the address `main` listens on: the buffer is the one
byte of the string. -/
theorem cstr_constructor_leaves_no_room :
    ∃ σ o, (byteArrays (Fin 1)).exec .empty (.constructStr 0 [48, 0]) = some (σ, o) ∧
      ((byteArrays (Fin 1)).toTSys (fun _ c => Builds c)).Reachable σ ∧
      ¬ CStrings σ := by
  obtain ⟨hheld, hroom⟩ := held_room_empty (ι := Fin 1)
  rcases exec_room hheld hroom (c := .constructStr 0 [48, 0]) trivial with
    ⟨σ, o, hexec, hheld', hiff⟩ | ⟨-, hleaves⟩
  · have hstep : ((byteArrays (Fin 1)).toTSys (fun _ c => Builds c)).step .empty
        (.constructStr 0 [48, 0]) σ := ⟨trivial, o, hexec⟩
    refine ⟨σ, o, hexec, .step (.init rfl) hstep, ?_⟩
    rw [hheld'.cstrings_iff_room, hiff]
    exact id
  · exact hleaves.elim

end LearnSpace.KvStore
