import LearnSpace.ByteArrays.CopiesAgree

/-!
# The capacity in the copy in `base`

`insertElement` of this copy raises `_capacity` when the bytes do not fit, and
replaces the buffer only when it is shared. So the capacity stays the length of
the buffer just as long as a buffer that is not shared is never outgrown, a tail
is not moved past the end, `squeeze` is not called on an array without bytes and
the constructor from a pointer and a length is not called with bytes.
-/

namespace LearnSpace.ByteArrays

open Keel Function KvStore
open KvStore.Pool (Frame)

variable {ι : Type} [Fintype ι] [DecidableEq ι] {σ σ' : Pool ι} {x : ι}

/-- An insertion of `len` bytes at `pos` that stays inside the buffer. -/
structure Fits (σ : Pool ι) (x : ι) (pos len : Nat) : Prop where
  /-- a buffer that is not shared is large enough -/
  room : σ.data.unique x = true → σ.size x + len ≤ σ.capacity x
  /-- the tail fits behind the old end -/
  tail : σ.size x + (σ.size x - pos) ≤ grown (σ.capacity x) (σ.size x) len

/-- The calls that leave the capacity the length of the buffer. -/
def Honest (σ : Pool ι) : Call ι → Prop
  | .constructPtrLen _ str => str = []
  | .append x str => Fits σ x (σ.size x) (str.len σ)
  | .insert x pos str => pos ≤ σ.size x → Fits σ x pos (str.len σ)
  | .prepend x str => Fits σ x 0 (str.len σ)
  | .squeeze x => 0 < σ.size x ∨ σ.capacity x = 0
  | _ => True

/-- What the claim says of a call: it does not reach outside a buffer, and in the
state behind it, if there is one, the capacities are those of the buffers. -/
structure KeepsCapacity (σ : Pool ι) (c : Call ι) : Prop where
  inside : Copy.base.call σ c ≠ .error .undefined
  sized : ∀ σ' answer, Copy.base.call σ c = .ok (σ', answer) → ∀ y, Sized σ' y

namespace KeepsCapacity

theorem of_ok {c : Call ι} (answer : Answer) (heq : Copy.base.call σ c = .ok (σ', answer))
    (hσ' : ∀ y, Sized σ' y) : KeepsCapacity σ c where
  inside h := by
    rw [heq] at h
    cases h
  sized σ'' _ h := by
    rw [heq] at h
    cases h
    exact hσ'

theorem of_terminated {c : Call ι} (heq : Copy.base.call σ c = .error .terminated) :
    KeepsCapacity σ c where
  inside h := by
    rw [heq] at h
    cases h
  sized _ _ h := by
    rw [heq] at h
    cases h

end KeepsCapacity

/-! ## Insertion -/

namespace Copy

/-- A tail that does not fit is written past the end. -/
theorem moveIn_outside {m n pos len : Nat} (k : Copy) (src : Source)
    (hr : Rebuilt x m n σ σ') (hfits : m ≤ n) (hpos : pos < m)
    (htail : ¬ k.tailOffset m len + (m - pos) ≤ n) : k.moveIn σ' x pos src len = none := by
  obtain ⟨b, hb, hlength⟩ := hr.buffer
  obtain ⟨tail, hread, htlength⟩ := readAt_length pos (m - pos) hb (by omega)
  have hwrite : writeAt σ'.data.heap (σ'.data.holder x) (k.tailOffset m len) tail = none := by
    rw [Option.eq_none_iff_forall_ne_some]
    intro h hsome
    have hne : tail ≠ [] := List.ne_nil_of_length_pos (by omega)
    have := (writeAt_some hb hsome).1 hne
    omega
  simp only [moveIn, hr.size, hread, hwrite, Option.bind_eq_bind, Option.bind_some,
    Option.bind_none]

omit [Fintype ι] in
/-- The copies change neither the capacity nor the length of the buffer. -/
theorem moveIn_length {pos len : Nat} {k : Copy} {src : Source} {b : List Byte}
    (heq : k.moveIn σ x pos src len = some σ')
    (hb : σ.data.heap.cell (σ.data.holder x) = some b) :
    σ'.capacity x = σ.capacity x ∧
      ∃ b', σ'.data.heap.cell (σ'.data.holder x) = some b' ∧ b'.length = b.length := by
  simp only [moveIn, Option.bind_eq_bind, Option.bind_eq_some_iff] at heq
  obtain ⟨tail, -, h₁, hwrite₁, d, -, h₂, hwrite₂, heq⟩ := heq
  cases heq
  obtain ⟨-, b₁, hb₁, hlength₁⟩ := writeAt_some hb hwrite₁
  obtain ⟨-, b₂, hb₂, hlength₂⟩ := writeAt_some hb₁ hwrite₂
  exact ⟨rfl, b₂, hb₂, hlength₂.trans hlength₁⟩

/-- With a buffer of its own that is too small, only the field grows. -/
theorem makeRoom_base_outgrown {len : Nat} (hown : σ.data.unique x = true)
    (hgrow : σ.size x + len > σ.capacity x) :
    base.makeRoom σ x len = some
      ({ σ with
        capacity := update σ.capacity x (stepCapacity (σ.capacity x + len)) }, .done) := by
  simp only [makeRoom, if_pos hgrow, detach, hown, if_true]

/-- Without a capacity there is nothing to replace a missing buffer by. -/
theorem detach_base_throws (hown : ¬ σ.data.unique x = true) (hzero : σ.capacity x = 0) :
    base.detach σ x = some (σ, .badArrayNewLength) := by
  rw [detach, if_neg hown, resetBuffer, if_pos ⟨by decide, hzero⟩]

/-- The insertion at a position inside the array, as a call. -/
theorem insertElement_base_iff (hσ : ∀ y, Sized σ y) {pos : Nat} (str : Arg ι) {c : Call ι}
    (hpos : pos ≤ σ.size x)
    (hc : base.call σ c =
      (base.insertElement σ x pos (str.source σ) (str.len σ)).returned) :
    KeepsCapacity σ c ↔ Fits σ x pos (str.len σ) := by
  have hfits := (hσ x).fits
  rw [insertElement, if_neg (not_not_intro hpos)] at hc
  by_cases hroom : σ.data.unique x = true → σ.size x + str.len σ ≤ σ.capacity x
  · by_cases hreplaced : σ.data.unique x = true ∨ 0 < σ.capacity x + str.len σ
    · obtain ⟨σ₁, hmake, hr, hkeep⟩ := makeRoom_rebuilt hσ hroom hreplaced
      have hle := le_grown hfits (str.len σ)
      rw [hmake] at hc
      by_cases htail :
          σ.size x + (σ.size x - pos) ≤ grown (σ.capacity x) (σ.size x) (str.len σ)
      · obtain ⟨σ', hmove, hr'⟩ := moveIn_rebuilt base hr hpos hle htail
          (fun _ _ hb hh => source_read hσ hr hkeep (by omega) str hb hh)
        simp only [Result.andThen, hmove] at hc
        exact iff_of_true (.of_ok _ hc (hr'.sized hle hσ)) ⟨hroom, htail⟩
      · have hmove : base.moveIn σ₁ x pos (str.source σ) (str.len σ) = none :=
          moveIn_outside base _ hr (by omega) (by omega) htail
        simp only [Result.andThen, hmove] at hc
        exact iff_of_false (fun h => h.inside hc) (fun h => htail h.tail)
    · -- neither capacity nor bytes
      have hzero : σ.capacity x = 0 ∧ str.len σ = 0 := by omega
      have hmake : base.makeRoom σ x (str.len σ) = some (σ, .badArrayNewLength) := by
        have hnot : ¬ σ.size x + str.len σ > σ.capacity x := by omega
        simp only [makeRoom, if_neg hnot, update_eq_self]
        exact detach_base_throws (fun h => hreplaced (.inl h)) hzero.1
      rw [hmake] at hc
      exact iff_of_true (.of_ok _ hc hσ) ⟨hroom, by omega⟩
  · -- the field grows, the buffer does not
    push Not at hroom
    obtain ⟨hown, hgrow⟩ := hroom
    refine iff_of_false (fun h => ?_) (fun h => by have := h.room hown; omega)
    rw [makeRoom_base_outgrown hown hgrow] at hc
    simp only [Result.andThen] at hc
    obtain ⟨b, hb, hlength⟩ : ∃ b, σ.data.heap.cell (σ.data.holder x) = some b ∧
        b.length = σ.capacity x := by
      rcases (hσ x).buffer with ⟨hnull, -⟩ | hb
      · exact absurd hnull (Shared.unique_iff.mp hown).1
      · exact hb
    cases hmove : base.moveIn
        { σ with capacity := update σ.capacity x (stepCapacity (σ.capacity x + str.len σ)) }
        x pos (str.source σ) (str.len σ) with
    | none =>
        rw [hmove] at hc
        exact h.inside hc
    | some σ' =>
        rw [hmove] at hc
        obtain ⟨hcapacity, b', hb', hlength'⟩ := moveIn_length hmove hb
        have hstep : σ.capacity x + str.len σ ≤ stepCapacity (σ.capacity x + str.len σ) :=
          Double.le_timesThreeHalves _
        have hcapacity : σ'.capacity x = stepCapacity (σ.capacity x + str.len σ) :=
          hcapacity.trans (update_self ..)
        obtain ⟨b'', hb'', hlength''⟩ := (h.sized _ _ hc x).cell_of_pos (by omega)
        rw [hb'] at hb''
        cases hb''
        omega

/-! ## The other calls -/

theorem constructCapacity_base (hσ : ∀ y, Sized σ y) {capacity : Nat} {c : Call ι}
    (hc : base.call σ c = (base.constructCapacity σ x capacity).noexcept) :
    KeepsCapacity σ c := by
  rcases Nat.eq_zero_or_pos capacity with rfl | hpos
  · apply KeepsCapacity.of_terminated
    rw [hc, constructCapacity, resetBuffer, if_pos ⟨by decide, update_self ..⟩]
    rfl
  · obtain ⟨σ', heq, hr⟩ := constructCapacity_agree (x := x) hσ _ hpos
    rw [heq] at hc
    exact .of_ok _ hc (hr.sized (Nat.zero_le _) hσ)

theorem constructStr_base (hσ : ∀ y, Sized σ y) (str : List Byte) :
    KeepsCapacity σ (.constructStr x str) := by
  rcases Nat.eq_zero_or_pos (strlen str) with hzero | hpos
  · apply KeepsCapacity.of_terminated
    rw [call, constructStr, hzero, constructCapacity, resetBuffer,
      if_pos ⟨by decide, update_self ..⟩]
    rfl
  · obtain ⟨σ', heq, hσ'⟩ := constructStr_agree (x := x) hσ hpos
    refine .of_ok .done ?_ hσ'
    rw [call, heq]
    rfl

/-- The bytes of an array that has none yet are copied from a null pointer. -/
theorem constructPtrLen_base_iff (str : List Byte) :
    KeepsCapacity σ (.constructPtrLen x str) ↔ str = [] := by
  have hsize : update (σ.release x).size x str.length x = str.length := update_self ..
  have hcapacity : update (σ.release x).capacity x str.length x = str.length := update_self ..
  constructor
  · intro h
    by_contra hne
    have hpos : str.length ≠ 0 := fun hzero => hne (List.eq_nil_of_length_eq_zero hzero)
    apply h.inside
    have hnull : (σ.release x).data.holder x = null := by
      show (σ.data.assign x null).holder x = _
      rw [Shared.assign_holder, update_self]
    have hread : readAt (σ.release x).data.heap ((σ.release x).data.holder x) 0 str.length
        = none := by
      rw [readAt, if_neg hpos, hnull, Heap.load_null]
      rfl
    rw [call, constructPtrLen]
    simp only [ptrLenFields, resetBuffer, hcapacity, hpos, and_false, if_false,
      Pool.resetBuffer, hsize, hread, Option.bind_eq_bind, Option.bind_none, Option.map_none,
      Result.andThen, Result.noexcept]
  · rintro rfl
    apply KeepsCapacity.of_terminated
    rw [call, constructPtrLen]
    simp only [ptrLenFields, resetBuffer, update_self, List.length_nil, ne_eq, reduceCtorEq,
      not_false_eq_true, and_self, if_true, Result.andThen, Result.noexcept]

/-- `squeeze` of an array without bytes sets the capacity and then throws. -/
theorem squeeze_base_iff (hσ : ∀ y, Sized σ y) :
    KeepsCapacity σ (.squeeze x) ↔ 0 < σ.size x ∨ σ.capacity x = 0 := by
  rcases Nat.eq_zero_or_pos (σ.size x) with hzero | hpos
  · have heq : base.call σ (.squeeze x) =
        .ok ({ σ with capacity := update σ.capacity x 0 }, .badArrayNewLength) := by
      rw [call, squeeze, hzero, resetBuffer, if_pos ⟨by decide, update_self ..⟩]
      rfl
    constructor
    · intro h
      right
      by_contra hne
      obtain ⟨b, hb, hlength⟩ := (hσ x).cell_of_pos (Nat.pos_of_ne_zero hne)
      have hx : update σ.capacity x 0 x = 0 := update_self ..
      rcases (h.sized _ _ heq x).buffer with ⟨hnull, -⟩ | ⟨b', hb', hlength'⟩
      · exact Heap.ne_null _ hb hnull
      · have hb' : σ.data.heap.cell (σ.data.holder x) = some b' := hb'
        have hlength' : b'.length = update σ.capacity x 0 x := hlength'
        rw [hb] at hb'
        cases hb'
        omega
    · intro h
      have hcapacity : σ.capacity x = 0 := by omega
      refine .of_ok _ heq ?_
      rw [← hcapacity, update_eq_self]
      exact hσ
  · obtain ⟨σ', heq, hr⟩ := resetBuffer_rebuilt (x := x) hσ (.inr rfl) (Nat.le_refl _) hpos
    simp only [update_eq_self] at heq
    refine iff_of_true (.of_ok .done ?_ (hr.sized (Nat.le_refl _) hσ)) (.inl hpos)
    rw [call, squeeze, heq]
    rfl

/-- `detach` throws or leaves the variable a buffer of its own. -/
theorem detach_base (hσ : ∀ y, Sized σ y) (x : ι) : KeepsCapacity σ (.detach x) := by
  by_cases hroom : σ.data.unique x = true ∨ 0 < σ.capacity x
  · obtain ⟨σ', heq, hr⟩ := detach_rebuilt hσ hroom
    refine .of_ok .done ?_ (hr.sized (hσ x).fits hσ)
    rw [call, heq]
    rfl
  · refine .of_ok .badArrayNewLength ?_ hσ
    rw [call, detach_base_throws (fun h => hroom (.inl h)) (by omega)]
    rfl

theorem remove_base (hσ : ∀ y, Sized σ y) (x : ι) (pos len : Nat) :
    KeepsCapacity σ (.remove x pos len) := by
  by_cases hpos : pos ≤ σ.size x
  · by_cases hroom : σ.data.unique x = true ∨ 0 < σ.capacity x
    · obtain ⟨σ', heq, hσ'⟩ := reomveElement_agree hσ len hpos hroom
      refine .of_ok .done ?_ hσ'
      rw [call, heq]
      rfl
    · refine .of_ok .badArrayNewLength ?_ hσ
      rw [call, reomveElement, if_neg (not_not_intro hpos),
        detach_base_throws (fun h => hroom (.inl h)) (by omega)]
      rfl
  · refine .of_ok .outOfRange ?_ hσ
    rw [call, reomveElement, if_pos hpos]
    rfl

end Copy

/-- One call keeps the capacities true if and only if it is honest. -/
theorem keepsCapacity_iff (hσ : ∀ y, Sized σ y) (c : Call ι) :
    KeepsCapacity σ c ↔ Honest σ c := by
  cases c with
  | construct x => exact iff_of_true (Copy.constructCapacity_base hσ rfl) trivial
  | constructCapacity x capacity =>
      exact iff_of_true (Copy.constructCapacity_base hσ rfl) trivial
  | constructPtrLen x str => exact Copy.constructPtrLen_base_iff str
  | constructStr x str => exact iff_of_true (Copy.constructStr_base hσ str) trivial
  | copyConstruct x other => exact iff_of_true (.of_ok _ rfl (.copyFrom hσ x other)) trivial
  | moveConstruct x other => exact iff_of_true (.of_ok _ rfl (.moveFrom hσ x other)) trivial
  | copyAssign x other => exact iff_of_true (.of_ok _ rfl (.copyFrom hσ x other)) trivial
  | moveAssign x other => exact iff_of_true (.of_ok _ rfl (.moveFrom hσ x other)) trivial
  | destroy x => exact iff_of_true (.of_ok _ rfl (.release hσ x)) trivial
  | append x str => exact Copy.insertElement_base_iff hσ str (Nat.le_refl _) rfl
  | insert x pos str =>
      by_cases hpos : pos ≤ σ.size x
      · rw [Copy.insertElement_base_iff hσ str hpos rfl]
        exact ⟨fun h _ => h, fun h => h hpos⟩
      · refine iff_of_true (.of_ok .outOfRange ?_ hσ) (fun h => absurd h hpos)
        rw [Copy.call, Copy.insert, Copy.insertElement, if_pos hpos]
        rfl
  | prepend x str => exact Copy.insertElement_base_iff hσ str (Nat.zero_le _) rfl
  | remove x pos len => exact iff_of_true (Copy.remove_base hσ x pos len) trivial
  | detach x => exact iff_of_true (Copy.detach_base hσ x) trivial
  | clear x =>
      obtain ⟨σ', heq, hr⟩ := Copy.constructCapacity_agree (x := x) hσ
        defInitCapacity (by decide)
      refine iff_of_true (.of_ok .done ?_ (hr.sized (Nat.zero_le _) hσ)) trivial
      have hclear : Copy.base.clear σ x = some (σ', .done) := heq .base
      rw [Copy.call, hclear]
      rfl
  | squeeze x => exact Copy.squeeze_base_iff hσ
  | at' x pos =>
      obtain ⟨σ', answer, hcall, hσ'⟩ := call_agree hσ (c := .at' x pos) trivial
      exact iff_of_true (.of_ok _ (hcall .base) hσ') trivial

/-- **The capacity in `base`.** Along every run of honest calls each variable's
size is within its capacity, which is the length of its buffer; and from each
state such a run reaches, a call keeps this, and stays inside the buffers, if
and only if it is honest. -/
theorem base_capacity_iff (hσ : ((copies .base ι).toTSys Honest).Reachable σ) :
    (∀ y, Sized σ y) ∧ ∀ c, KeepsCapacity σ c ↔ Honest σ c := by
  have hinvariant : ((copies .base ι).toTSys Honest).Invariant (fun σ => ∀ y, Sized σ y) := by
    apply TSys.Inductive.invariant
    refine ⟨?_, ?_⟩
    · rintro σ rfl
      exact Sized.empty
    · rintro σ c σ' hσ ⟨hhonest, o, hexec⟩
      have hkeeps := (keepsCapacity_iff hσ c).mpr hhonest
      simp only [copies] at hexec
      split at hexec
      · cases hexec
      · rename_i hcall
        cases hexec
        exact hkeeps.sized _ _ hcall
  exact ⟨hinvariant σ hσ, keepsCapacity_iff (hinvariant σ hσ)⟩

/-- `CMByteArray a("A");` -/
theorem base_capacity_iff_constructed :
    ∃ σ o, (copies .base (Fin 1)).exec .empty (.constructStr 0 [65, 0]) = some (σ, o) ∧
      (∀ y, Sized σ y) ∧ ∀ c, KeepsCapacity σ c ↔ Honest σ c := by
  obtain ⟨⟨σ, o⟩, hexec⟩ := Option.isSome_iff_exists.mp
    (show ((copies .base (Fin 1)).exec .empty (.constructStr 0 [65, 0])).isSome by decide)
  have hstep : ((copies .base (Fin 1)).toTSys Honest).step .empty (.constructStr 0 [65, 0]) σ :=
    ⟨trivial, o, hexec⟩
  exact ⟨σ, o, hexec, base_capacity_iff (.step (.init rfl) hstep)⟩

/-- `CMByteArray a("A"); a.append("B", 1);` writes behind the buffer of one byte. -/
theorem append_outgrows_buffer :
    ∃ σ : Pool (Fin 1), ((copies .base (Fin 1)).toTSys (fun _ _ => True)).Reachable σ ∧
      ¬ KeepsCapacity σ (.append 0 (.ptr [66])) :=
  ⟨_, .step (e := .constructStr 0 [65, 0]) (.init rfl) ⟨trivial, _, rfl⟩,
    fun h => h.inside rfl⟩

end LearnSpace.ByteArrays
