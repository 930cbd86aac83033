import LearnSpace.KvStore.ByteArray

/-!
# Byte arrays are values

Variables of the pool share buffers, and every method that changes a buffer
first sees to it that its variable is the only holder. `Stored` says which
bytes a variable has; `Frame x` says that a step touched `x` alone, and it
carries `Stored` over for everybody else. Each method is specified once by
what it makes of its own variable and by its frame; the plain lists of
`lists` then follow call by call.
-/

namespace LearnSpace.KvStore

open Keel Function

/-! ## Memory accesses -/

section

variable {h : Heap (List Byte)} {p : Ptr} {b : List Byte} {off len : Nat}

/-- Reading inside a live buffer. -/
theorem readAt_eq (hcell : h.cell p = some b) (hfits : off + len ≤ b.length) :
    readAt h p off len = some ((b.drop off).take len) := by
  rw [readAt]
  split
  · rename_i hzero
    rw [hzero, List.take_zero]
  · simp only [Heap.load, hcell, Option.bind_eq_bind, Option.bind_some, Buffer.slice_eq hfits]

/-- Writing inside a live buffer. -/
theorem writeAt_eq (off : Nat) (src : List Byte) (hcell : h.cell p = some b)
    (hfits : off + src.length ≤ b.length) :
    ∃ h', writeAt h p off src = some h' ∧
      h'.cell = update h.cell p (some (b.take off ++ src ++ b.drop (off + src.length))) := by
  rw [writeAt]
  split
  · rename_i hnil
    refine ⟨h, rfl, ?_⟩
    rw [hnil, List.append_nil, List.length_nil, Nat.add_zero, List.take_append_drop, ← hcell,
      update_eq_self]
  · obtain ⟨h', hstore, hcell', _⟩ :=
      Heap.store_eq hcell (b.take off ++ src ++ b.drop (off + src.length))
    refine ⟨h', ?_, hcell'⟩
    simp only [Heap.load, hcell, Option.bind_eq_bind, Option.bind_some, Buffer.blit_eq hfits,
      hstore]

end

/-! ## Growth -/

/-- The capacity after room was made for `n` more bytes. -/
def grown (capacity size n : Nat) : Nat :=
  if size + n > capacity then stepCapacity (capacity + n) else capacity

/-- 1.5 times a number, in a double and truncated, is not less. -/
theorem le_stepCapacity (m n : Nat) : m ≤ stepCapacity (m + n) :=
  (Nat.le_add_right m n).trans (Double.le_timesThreeHalves _)

theorem le_grown {capacity size : Nat} (h : size ≤ capacity) (n : Nat) :
    size + n ≤ grown capacity size n := by
  have hstep : capacity + n ≤ stepCapacity (capacity + n) := Double.le_timesThreeHalves _
  rw [grown]
  split <;> omega

namespace Pool

section

variable {ι : Type} {σ σ' σ'' : Pool ι} {x y : ι} {bs : List Byte}

/-- A buffer of `capacity` bytes that starts with `bs` and is zero behind. -/
def filled (bs : List Byte) (capacity : Nat) : List Byte :=
  bs ++ List.replicate (capacity - bs.length) 0

theorem length_filled {capacity : Nat} (h : bs.length ≤ capacity) :
    (filled bs capacity).length = capacity := by
  rw [filled, List.length_append, List.length_replicate]
  omega

/-- The variable `x` has the bytes `bs`: its buffer has the length of its
capacity, begins with them and is zero from there on, or there is neither
buffer nor capacity. -/
structure Stored (σ : Pool ι) (x : ι) (bs : List Byte) : Prop where
  size : σ.size x = bs.length
  fits : bs.length ≤ σ.capacity x
  buffer : (σ.data.holder x = null ∧ σ.capacity x = 0) ∨
    σ.data.heap.cell (σ.data.holder x) = some (filled bs (σ.capacity x))

theorem Stored.content (h : σ.Stored x bs) : σ.content x = bs := by
  rcases h.buffer with ⟨hnull, hcap⟩ | hcell
  · have hnil : bs = [] := List.eq_nil_of_length_eq_zero (by have := h.fits; omega)
    rw [Pool.content, h.size, hnil]
    rfl
  · rw [Pool.content, hcell, h.size, Option.getD_some, filled, List.take_left]

/-- The bytes of a variable can be read through its pointer, null or not. -/
theorem Stored.read (h : σ.Stored x bs) :
    readAt σ.data.heap (σ.data.holder x) 0 (σ.size x) = some bs := by
  rcases h.buffer with ⟨_, hcap⟩ | hcell
  · have hnil : bs = [] := List.eq_nil_of_length_eq_zero (by have := h.fits; omega)
    rw [readAt, if_pos (by rw [h.size, hnil, List.length_nil]), hnil]
  · rw [readAt_eq hcell (by rw [length_filled h.fits, h.size]; have := h.fits; omega), h.size,
      List.drop_zero, filled, List.take_left]

/-- A null pointer, or one to a live buffer. -/
theorem Stored.live (h : σ.Stored x bs) :
    σ.data.holder x = null ∨ ∃ b, σ.data.heap.cell (σ.data.holder x) = some b := by
  rcases h.buffer with ⟨hnull, _⟩ | hcell
  · exact .inl hnull
  · exact .inr ⟨_, hcell⟩

/-- Everybody but `x` has some bytes. -/
def Others (σ : Pool ι) (x : ι) : Prop := ∀ y, y ≠ x → ∃ bs, σ.Stored y bs

/-! ## Frames -/

/-- The step from `σ` to `σ'` touched no other variable than `x`, and no
buffer another variable has. -/
structure Frame (x : ι) (σ σ' : Pool ι) : Prop where
  holder : ∀ y, y ≠ x → σ'.data.holder y = σ.data.holder y
  size : ∀ y, y ≠ x → σ'.size y = σ.size y
  capacity : ∀ y, y ≠ x → σ'.capacity y = σ.capacity y
  cell : ∀ y b, y ≠ x → σ.data.heap.cell (σ.data.holder y) = some b →
    σ'.data.heap.cell (σ.data.holder y) = some b

namespace Frame

theorem refl (x : ι) (σ : Pool ι) : Frame x σ σ :=
  ⟨fun _ _ => rfl, fun _ _ => rfl, fun _ _ => rfl, fun _ _ _ h => h⟩

theorem trans (h : Frame x σ σ') (h' : Frame x σ' σ'') : Frame x σ σ'' where
  holder y hy := (h'.holder y hy).trans (h.holder y hy)
  size y hy := (h'.size y hy).trans (h.size y hy)
  capacity y hy := (h'.capacity y hy).trans (h.capacity y hy)
  cell y b hy hb := by
    have := h'.cell y b hy (by rw [h.holder y hy]; exact h.cell y b hy hb)
    rwa [h.holder y hy] at this

/-- Another variable keeps its bytes. -/
theorem stored (h : Frame x σ σ') (hy : y ≠ x) (hs : σ.Stored y bs) : σ'.Stored y bs where
  size := by rw [h.size y hy, hs.size]
  fits := by rw [h.capacity y hy]; exact hs.fits
  buffer := by
    rw [h.holder y hy, h.capacity y hy]
    exact hs.buffer.imp id (h.cell y _ hy)

theorem others (h : Frame x σ σ') (ho : σ.Others x) : σ'.Others x := by
  intro y hy
  obtain ⟨bs, hs⟩ := ho y hy
  exact ⟨bs, h.stored hy hs⟩

/-- Setting the fields of `x`. -/
theorem fields [DecidableEq ι] (x : ι) (σ : Pool ι) (m n : Nat) :
    Frame x σ { σ with size := update σ.size x m, capacity := update σ.capacity x n } where
  holder _ _ := rfl
  size _ hy := update_of_ne hy _ _
  capacity _ hy := update_of_ne hy _ _
  cell _ _ _ hb := hb

end Frame

end

variable {ι : Type} [Fintype ι] [DecidableEq ι]
variable {σ σ' σ'' : Pool ι} {x y : ι} {bs cs : List Byte}

/-- Pointing `x` somewhere else and setting its fields. -/
theorem Frame.assign (x : ι) (σ : Pool ι) (p : Ptr) (m n : Nat) :
    Frame x σ
      { data := σ.data.assign x p
        size := update σ.size x m
        capacity := update σ.capacity x n } where
  holder y hy := by rw [Shared.assign_holder, update_of_ne hy]
  size _ hy := update_of_ne hy _ _
  capacity _ hy := update_of_ne hy _ _
  cell y b hy hb := by
    show (σ.data.assign x p).heap.cell (σ.data.holder y) = some b
    rw [Shared.assign_cell_of_held (y := y) (by rw [Shared.assign_holder, update_of_ne hy])
      (σ.data.heap.ne_null hb), hb]

/-- Writing to the buffer of `x`, which is nobody else's. -/
theorem Frame.write {h : Heap (List Byte)} {b : List Byte} (m : Nat)
    (hown : σ.data.unique x = true)
    (hh : h.cell = update σ.data.heap.cell (σ.data.holder x) (some b)) :
    Frame x σ { σ with data := { σ.data with heap := h }, size := update σ.size x m } where
  holder _ _ := rfl
  size _ hy := update_of_ne hy _ _
  capacity _ _ := rfl
  cell y c hy hc := by
    show h.cell (σ.data.holder y) = some c
    rw [hh, update_of_ne ((Shared.unique_iff.mp hown).2 y hy), hc]

/-- A variable with a buffer of its own has it in a live cell. -/
theorem Stored.cell (h : σ.Stored x bs) (hown : σ.data.unique x = true) :
    σ.data.heap.cell (σ.data.holder x) = some (filled bs (σ.capacity x)) := by
  rcases h.buffer with ⟨hnull, _⟩ | hcell
  · exact absurd hnull (Shared.unique_iff.mp hown).1
  · exact hcell

/-- What a method on `x` makes of the pool: the bytes `bs` in a buffer of its
own of `n` bytes, and nothing changed elsewhere. -/
structure Makes (x : ι) (bs : List Byte) (n : Nat) (σ σ' : Pool ι) : Prop where
  stored : σ'.Stored x bs
  capacity : σ'.capacity x = n
  own : σ'.data.unique x = true
  frame : Frame x σ σ'

omit [DecidableEq ι] in
theorem Makes.of_frame {n : Nat} (hf : Frame x σ σ') (h : Makes x bs n σ' σ'') :
    Makes x bs n σ σ'' :=
  ⟨h.stored, h.capacity, h.own, hf.trans h.frame⟩

/-! ## The private methods -/

/-- `resetBuffer` moves what can be read of `x` to a fresh buffer, which nobody
else has if the others point to null or to live buffers. -/
theorem resetBuffer_eq
    (hlive : ∀ y, y ≠ x → σ.data.holder y = null ∨
      ∃ b, σ.data.heap.cell (σ.data.holder y) = some b)
    (hread : readAt σ.data.heap (σ.data.holder x) 0 (σ.size x) = some bs)
    (hfits : bs.length ≤ σ.capacity x) :
    ∃ σ', σ.resetBuffer x = some σ' ∧ σ'.size = σ.size ∧ σ'.capacity = σ.capacity ∧
      σ'.data.heap.cell (σ'.data.holder x) = some (filled bs (σ.capacity x)) ∧
      σ'.data.unique x = true ∧ Frame x σ σ' := by
  have hblit : Buffer.blit (List.replicate (σ.capacity x) 0) 0 bs
      = some (filled bs (σ.capacity x)) := by
    rw [Buffer.blit, if_pos (by rw [List.length_replicate]; omega)]
    simp [filled]
  have hcell := Shared.fresh_cell (S := σ.data) (x := x) (a := filled bs (σ.capacity x))
  refine ⟨{ σ with data := σ.data.fresh x (filled bs (σ.capacity x)) }, ?_, rfl, rfl, hcell,
    ?_, ?_⟩
  · simp only [resetBuffer, hread, hblit, Option.bind_eq_bind, Option.bind_some]
    rfl
  · rw [Shared.unique_iff]
    refine ⟨Heap.ne_null _ hcell, fun y hy => ?_⟩
    rcases hlive y hy with hnull | ⟨b, hb⟩
    · show (σ.data.fresh x _).holder y ≠ _
      rw [Shared.fresh_holder, update_of_ne hy, hnull, ← Shared.fresh_holder]
      exact (Heap.ne_null _ hcell).symm
    · exact Shared.fresh_unshared hy hb
  · exact
      { holder := fun y hy => by
          show (σ.data.fresh x _).holder y = _
          rw [Shared.fresh_holder, update_of_ne hy]
        size := fun _ _ => rfl
        capacity := fun _ _ => rfl
        cell := fun y b hy hb => Shared.fresh_cell_of_held hy hb }

/-- With the bytes of `x` in front, the buffer of `x` is what it should be. -/
theorem resetBuffer_spec (ho : σ.Others x) (hsize : σ.size x = bs.length)
    (hread : readAt σ.data.heap (σ.data.holder x) 0 (σ.size x) = some bs)
    (hfits : bs.length ≤ σ.capacity x) :
    ∃ σ', σ.resetBuffer x = some σ' ∧ Makes x bs (σ.capacity x) σ σ' := by
  have hlive : ∀ y, y ≠ x → σ.data.holder y = null ∨
      ∃ b, σ.data.heap.cell (σ.data.holder y) = some b := by
    intro y hy
    obtain ⟨cs, hs⟩ := ho y hy
    exact hs.live
  obtain ⟨σ', hreset, hsize', hcapacity, hcell, hown, hframe⟩ :=
    resetBuffer_eq hlive hread hfits
  refine ⟨σ', hreset, ⟨?_, ?_, .inr ?_⟩, by rw [hcapacity], hown, hframe⟩
  · rw [hsize', hsize]
  · rw [hcapacity]
    exact hfits
  · rw [hcapacity]
    exact hcell

/-- `resetBuffer` on a variable that was set to have no bytes. -/
theorem resetBuffer_empty_spec (ho : σ.Others x) (capacity : Nat) :
    ∃ σ', resetBuffer
        { σ with
          size := update σ.size x 0
          capacity := update σ.capacity x capacity } x = some σ' ∧
      Makes x [] capacity σ σ' := by
  have hf := Frame.fields x σ 0 capacity
  have hsize : update σ.size x 0 x = ([] : List Byte).length := update_self ..
  obtain ⟨σ', hreset, hmakes⟩ := resetBuffer_spec (hf.others ho) hsize
    (if_pos hsize) (Nat.zero_le _)
  exact ⟨σ', hreset, hmakes.stored, hmakes.capacity.trans (update_self ..), hmakes.own,
    hf.trans hmakes.frame⟩

/-- `resetBuffer` after a change of the capacity that leaves room. -/
theorem resetBuffer_resize_spec (ho : σ.Others x) (hs : σ.Stored x bs) (capacity : Nat)
    (hfits : bs.length ≤ capacity) :
    ∃ σ', resetBuffer { σ with capacity := update σ.capacity x capacity } x = some σ' ∧
      Makes x bs capacity σ σ' := by
  have hf : Frame x σ { σ with capacity := update σ.capacity x capacity } := by
    simpa using Frame.fields x σ (σ.size x) capacity
  obtain ⟨σ', hreset, hmakes⟩ := resetBuffer_spec (hf.others ho) hs.size hs.read
    (hfits.trans_eq (update_self x capacity σ.capacity).symm)
  exact ⟨σ', hreset, hmakes.stored, hmakes.capacity.trans (update_self ..), hmakes.own,
    hf.trans hmakes.frame⟩

/-- `detach` leaves the bytes of `x` in a buffer of its own. -/
theorem detach_spec (ho : σ.Others x) (hs : σ.Stored x bs) :
    ∃ σ', σ.detach x = some σ' ∧ Makes x bs (σ.capacity x) σ σ' := by
  rw [detach]
  by_cases hown : σ.data.unique x = true
  · rw [if_pos hown]
    exact ⟨σ, rfl, hs, rfl, hown, .refl x σ⟩
  · rw [if_neg hown]
    exact resetBuffer_spec ho hs.size hs.read hs.fits

/-- The growth leaves room for the bytes to come, in a buffer of its own. -/
theorem makeRoom_spec (ho : σ.Others x) (hs : σ.Stored x bs) (n : Nat) :
    ∃ σ', σ.makeRoom x n = some σ' ∧
      Makes x bs (grown (σ.capacity x) bs.length n) σ σ' := by
  have hfits := hs.fits
  rw [makeRoom, grown, hs.size]
  split
  · -- growing has detached already, so `detach` finds the buffer its own
    obtain ⟨σ₁, hreset, hmakes⟩ := resetBuffer_resize_spec ho hs
      (stepCapacity (σ.capacity x + n)) (hfits.trans (le_stepCapacity _ _))
    obtain ⟨σ₂, hdetach, hmakes'⟩ := detach_spec (hmakes.frame.others ho) hmakes.stored
    refine ⟨σ₂, by simp only [hreset, Option.bind_eq_bind, Option.bind_some, hdetach], ?_⟩
    rw [hmakes.capacity] at hmakes'
    exact .of_frame hmakes.frame hmakes'
  · exact detach_spec ho hs

/-- Insertion at the end appends, when the source bytes are there after the
growth. -/
theorem insertElement_room_spec {src : Source} {d : List Byte} (ho : σ.Others x)
    (hs : σ.Stored x bs)
    (hsrc : ∀ σ', σ.makeRoom x d.length = some σ' →
      Makes x bs (grown (σ.capacity x) bs.length d.length) σ σ' →
      src.read σ'.data.heap d.length = some d) :
    ∃ σ', σ.insertElement x (σ.size x) src d.length = some (σ', .done) ∧
      Makes x (bs ++ d) (grown (σ.capacity x) bs.length d.length) σ σ' := by
  obtain ⟨σ₁, hroom, hmakes⟩ := makeRoom_spec ho hs d.length
  have hread := hsrc σ₁ hroom hmakes
  obtain ⟨hs₁, hcap, hown, hf⟩ := hmakes
  have hsize : σ.size x = bs.length := hs.size
  have hfits : bs.length + d.length ≤ σ₁.capacity x := by
    rw [hcap]
    exact le_grown hs.fits _
  obtain ⟨h', hwrite, hh⟩ := writeAt_eq bs.length d (hs₁.cell hown)
    (by rw [length_filled hs₁.fits]; exact hfits)
  refine ⟨{ σ₁ with
      data := { σ₁.data with heap := h' }
      size := update σ₁.size x (σ.size x + d.length) }, ?_, ?_⟩
  · rw [insertElement, if_neg (by simp), hroom]
    simp only [Option.bind_eq_bind, Option.bind_some, hs₁.size, hsize, Nat.sub_self]
    simp only [readAt, writeAt, if_true, Option.bind_some, hread]
    rw [← writeAt, hwrite]
    rfl
  · refine ⟨⟨?_, ?_, .inr ?_⟩, hcap, hown, hf.trans (.write _ hown hh)⟩
    · show update σ₁.size x _ x = _
      rw [update_self, hsize, List.length_append]
    · rw [List.length_append]
      exact hfits
    · show h'.cell (σ₁.data.holder x) = _
      rw [hh, update_self, filled, filled, List.take_left, List.drop_append,
        List.drop_eq_nil_of_le (Nat.le_add_right ..), List.nil_append,
        Nat.add_sub_cancel_left, List.drop_replicate, List.length_append, Nat.sub_sub]

/-- Bytes that no step of `x` changes are there after the growth. -/
theorem insertElement_spec {src : Source} {d : List Byte} (ho : σ.Others x)
    (hs : σ.Stored x bs)
    (hsrc : ∀ σ', Frame x σ σ' → src.read σ'.data.heap d.length = some d) :
    ∃ σ', σ.insertElement x (σ.size x) src d.length = some (σ', .done) ∧
      Makes x (bs ++ d) (grown (σ.capacity x) bs.length d.length) σ σ' :=
  insertElement_room_spec ho hs (fun σ' _ hmakes => hsrc σ' hmakes.frame)

/-- The bytes behind a range move over it, and the tail is zeroed. -/
theorem closeGap {h : Heap (List Byte)} {p : Ptr} {capacity pos k : Nat}
    (hcell : h.cell p = some (filled bs capacity)) (hfits : bs.length ≤ capacity)
    (hk : pos + k ≤ bs.length) :
    ∃ h₁ h₂, readAt h p (pos + k) (bs.length - pos - k) = some (bs.drop (pos + k)) ∧
      writeAt h p pos (bs.drop (pos + k)) = some h₁ ∧
      writeAt h₁ p (bs.length - k) (List.replicate (capacity - (bs.length - k)) 0) = some h₂ ∧
      h₂.cell = update h.cell p (some (filled (bs.take pos ++ bs.drop (pos + k)) capacity)) := by
  have hlen := length_filled hfits
  have hkept : (bs.take pos ++ bs.drop (pos + k)).length = bs.length - k := by
    rw [List.length_append, List.length_take, List.length_drop]
    omega
  have hread : readAt h p (pos + k) (bs.length - pos - k) = some (bs.drop (pos + k)) := by
    rw [readAt_eq hcell (by omega), filled, List.drop_append_of_le_length hk,
      List.take_left' (by rw [List.length_drop]; omega)]
  obtain ⟨h₁, hmove, hh₁⟩ := writeAt_eq pos (bs.drop (pos + k)) hcell
    (by rw [List.length_drop]; omega)
  have hcell₁ : h₁.cell p
      = some (bs.take pos ++ bs.drop (pos + k) ++ (filled bs capacity).drop (bs.length - k)) := by
    rw [hh₁, update_self, filled, List.take_append_of_le_length (by omega), List.length_drop]
    congr 4
    omega
  -- the bytes that are zeroed reach to the end of the buffer
  have hlen₁ : (bs.take pos ++ bs.drop (pos + k)
      ++ (filled bs capacity).drop (bs.length - k)).length
      = bs.length - k + (List.replicate (capacity - (bs.length - k)) (0 : Byte)).length := by
    rw [List.length_append, hkept, List.length_drop, hlen, List.length_replicate]
  obtain ⟨h₂, hzero, hh₂⟩ := writeAt_eq _ _ hcell₁ hlen₁.ge
  have hfilled : filled (bs.take pos ++ bs.drop (pos + k)) capacity
      = bs.take pos ++ bs.drop (pos + k) ++ List.replicate (capacity - (bs.length - k)) 0 := by
    rw [filled, hkept]
  refine ⟨h₁, h₂, hread, hmove, hzero, ?_⟩
  rw [hh₂, hh₁, update_idem, List.take_left' hkept, List.drop_eq_nil_of_le hlen₁.le,
    List.append_nil, hfilled]

/-- Removal keeps what is before and behind the removed range, clipped to the
end. -/
theorem reomveElement_spec (ho : σ.Others x) (hs : σ.Stored x bs) {pos : Nat} (len : Nat)
    (hpos : pos ≤ bs.length) :
    ∃ σ', σ.reomveElement x pos len = some (σ', .done) ∧
      Makes x (bs.take pos ++ bs.drop (pos + len)) (σ.capacity x) σ σ' := by
  obtain ⟨σ₁, hdetach, ⟨hs₁, hcap, hown, hf⟩⟩ := detach_spec ho hs
  -- `k` is the clipped length
  obtain ⟨k, hk⟩ : ∃ k, (if bs.length - pos < len then bs.length - pos else len) = k := ⟨_, rfl⟩
  have hkn : pos + k ≤ bs.length := by
    rw [← hk]
    split <;> omega
  have hrest : bs.drop (pos + len) = bs.drop (pos + k) := by
    by_cases hclip : bs.length - pos < len
    · rw [if_pos hclip] at hk
      rw [List.drop_eq_nil_of_le (by omega), List.drop_eq_nil_of_le (by omega)]
    · rw [if_neg hclip] at hk
      rw [hk]
  obtain ⟨h₁, h₂, hread, hmove, hzero, hh⟩ := closeGap (hs₁.cell hown) hs₁.fits hkn
  rw [hrest]
  refine ⟨{ σ₁ with
      data := { σ₁.data with heap := h₂ }
      size := update σ₁.size x (bs.length - k) }, ?_, ?_⟩
  · rw [reomveElement, if_neg (by rw [hs.size]; exact not_not_intro hpos), hdetach]
    simp only [Option.bind_eq_bind, Option.bind_some, hs₁.size, hk, hread, hmove, hzero]
    rfl
  · have hsize : (bs.take pos ++ bs.drop (pos + k)).length = bs.length - k := by
      rw [List.length_append, List.length_take, List.length_drop]
      omega
    refine ⟨⟨?_, ?_, .inr ?_⟩, hcap, hown, hf.trans (.write _ hown hh)⟩
    · show update σ₁.size x _ x = _
      rw [update_self, hsize]
    · show _ ≤ σ₁.capacity x
      rw [hsize]
      exact (Nat.sub_le _ _).trans hs₁.fits
    · show h₂.cell (σ₁.data.holder x) = _
      rw [hh, update_self]

/-! ## The public methods -/

theorem constructCapacity_spec (ho : σ.Others x) (capacity : Nat) :
    ∃ σ', σ.constructCapacity x capacity = some σ' ∧ Makes x [] capacity σ σ' :=
  resetBuffer_empty_spec ho capacity

/-- A constructor that fills the new array from bytes of the caller. -/
theorem construct_insert_spec (ho : σ.Others x) (capacity : Nat) {src : Source}
    {d : List Byte} (hsrc : ∀ h, src.read h d.length = some d) :
    ∃ σ', (do
        let σ ← σ.constructCapacity x capacity
        σ.insertElement x 0 src d.length) = some (σ', Outcome.done) ∧
      Makes x d (grown capacity 0 d.length) σ σ' := by
  obtain ⟨σ₁, hconstruct, hmakes⟩ := constructCapacity_spec ho capacity
  obtain ⟨σ₂, hinsert, hmakes'⟩ := insertElement_spec (hmakes.frame.others ho) hmakes.stored
    (fun σ' _ => hsrc σ'.data.heap)
  rw [hmakes.stored.size] at hinsert
  rw [hmakes.capacity] at hmakes'
  exact ⟨σ₂, by simp only [hconstruct, Option.bind_eq_bind, Option.bind_some]; exact hinsert,
    .of_frame hmakes.frame hmakes'⟩

theorem clear_spec (ho : σ.Others x) :
    ∃ σ', σ.clear x = some σ' ∧ Makes x [] defInitCapacity σ σ' :=
  resetBuffer_empty_spec ho defInitCapacity

theorem squeeze_spec (ho : σ.Others x) (hs : σ.Stored x bs) :
    ∃ σ', σ.squeeze x = some σ' ∧ Makes x bs bs.length σ σ' := by
  rw [squeeze, hs.size]
  exact resetBuffer_resize_spec ho hs bs.length (Nat.le_refl _)

/-- Another variable's bytes outlive the growth of `x`, also when the two were
on one buffer. -/
theorem append_spec {str : ι} (ho : σ.Others x) (hs : σ.Stored x bs) (hs' : σ.Stored str cs)
    (hne : str ≠ x ∨ σ.size str = 0) :
    ∃ σ', σ.append x str = some (σ', .done) ∧
      Makes x (bs ++ cs) (grown (σ.capacity x) bs.length cs.length) σ σ' := by
  rw [append, hs'.size]
  refine insertElement_spec ho hs (fun σ' hf => ?_)
  rw [hs'.size] at hne
  rcases hne with hne | hzero
  · have hread := (hf.stored hne hs').read
    rw [hf.holder str hne, hf.size str hne, hs'.size] at hread
    exact hread
  · rw [Source.read, readAt, if_pos hzero, List.eq_nil_of_length_eq_zero hzero]

end Pool

/-! ## Bytes of the caller -/

theorem read_bytes (b : List Byte) (h : Heap (List Byte)) :
    (Source.bytes b).read h b.length = some b := by
  rw [Source.read, Buffer.slice_eq (by omega), List.drop_zero, List.take_length]

/-- A C string is read up to its terminator. -/
theorem read_str (str : List Byte) (h : Heap (List Byte)) :
    (Source.bytes str).read h (str.takeWhile (· ≠ 0)).length
      = some (str.takeWhile (· ≠ 0)) := by
  have hprefix := List.takeWhile_prefix (· ≠ (0 : Byte)) (l := str)
  rw [Source.read, Buffer.slice_eq (by rw [Nat.zero_add]; exact hprefix.length_le),
    List.drop_zero, ← List.prefix_iff_eq_take.mp hprefix]

end LearnSpace.KvStore
