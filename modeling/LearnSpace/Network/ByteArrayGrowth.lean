import LearnSpace.Network.ByteArrayRuns

/-!
# Growing an array

`append` and `insert` before the end make a shared buffer an own one, make room where there is
too little, and write. `creatMemory`, which replaces the buffer for both reasons, copies as many
bytes as the new buffer is to have: so a buffer that is too small is never replaced by a longer
one, and a shared one only by one that is no longer (`edit_cases`).

Whatever the operations are, also where the counters are wrong, no size is over `m_bufferLen`,
and that is the length of the buffer as long as it is live (`reachable_bounded`).
-/

namespace LearnSpace.Network

open Keel Function
open KvStore (Byte Source readAt writeAt)

/-! ## The steps of `append` and `insert` -/

namespace State

variable {ι : Type} [DecidableEq ι]

/-- Where `append` makes room. -/
def growAppend (σ : State ι) (x : ι) (newSize : Nat) : Option (State ι × Answer) := do
  let b ← σ.var x
  if b.bufferLen < newSize then do
    let newSize ← stepped newSize
    σ.creatMemory x newSize
  else some (σ, .done)

/-- Where `insert` makes room. -/
def growInsert (σ : State ι) (x : ι) (newSize : Nat) : Option (State ι × Answer) := do
  let b ← σ.var x
  if b.bufferLen < newSize then
    σ.creatMemory x ((newSize - b.bufferLen + newSize) % uintSize)
  else some (σ, .done)

/-- Where `append` writes. -/
def writeEnd (σ : State ι) (x : ι) (byte : Source) (len : Nat) :
    Option (State ι × Answer) := do
  let b ← σ.var x
  let buffers ← memcpy σ.buffers b.buffer b.size byte len
  return ({ σ with buffers := buffers }.set x { b with size := (b.size + len) % uintSize }, .done)

/-- Where `insert` writes. -/
def writeInside (σ : State ι) (x : ι) (pos : Nat) (byte : Source) (len : Nat) :
    Option (State ι × Answer) := do
  let b ← σ.var x
  let buffers ← memcpy σ.buffers b.buffer (pos + len) (.buffer b.buffer pos) (b.size - pos)
  let buffers ← memcpy buffers b.buffer pos byte len
  return ({ σ with buffers := buffers }.set x { b with size := (b.size + len) % uintSize }, .done)

end State

variable {ι : Type} [DecidableEq ι] {σ σ' τ υ : State ι} {x : ι} {b c : CMByteArray}
  {byte : Source} {len m n pos size : Nat} {answer : Answer}

theorem appendPtr_steps (hx : σ.var x = some b) (hlen : len ≠ 0) :
    σ.appendPtr x byte len = andThen (σ.detach x ((b.size + len) % uintSize)) fun τ =>
      andThen (τ.growAppend x ((b.size + len) % uintSize)) fun υ => υ.writeEnd x byte len := by
  rw [State.appendPtr, if_neg hlen, hx, Option.bind_eq_bind, Option.bind_some, Nat.add_comm len]
  refine congrArg (andThen _) (funext fun τ => ?_)
  rw [State.growAppend]
  cases τ.var x <;> rfl

theorem insertPtr_steps (hx : σ.var x = some b) (hlen : len ≠ 0) (hpos : pos < b.size) :
    σ.insertPtr x pos byte len = andThen (σ.detach x ((b.size + len) % uintSize)) fun τ =>
      andThen (τ.growInsert x ((b.size + len) % uintSize)) fun υ =>
        υ.writeInside x pos byte len := by
  rw [State.insertPtr, hx, Option.bind_eq_bind, Option.bind_some, if_neg (by omega),
    if_neg (by omega)]
  refine congrArg (andThen _) (funext fun τ => ?_)
  rw [State.growInsert]
  cases τ.var x <;> rfl

/-! ## What each step can do -/

/-- An own buffer, whose counter says so, is left alone, and a shared one is moved. The new
length may wrap to 0, which `creatMemory` throws at. -/
theorem detach_cases (hb : Based σ b) (hx : σ.var x = some b)
    (hrun : σ.detach x m = some (τ, answer)) :
    ∃ n, σ.counters.cell b.useCount = some n ∧
      ((n ≤ 1 ∧ answer = .done ∧ τ = σ) ∨ (1 < n ∧ answer ≠ .done ∧ τ = σ) ∨
        (1 < n ∧ answer = .done ∧ Moved σ x b (Double.timesThreeHalves m) τ)) := by
  rw [State.detach, hx, Option.bind_eq_bind, Option.bind_some, Option.bind_eq_bind,
    Option.bind_eq_some_iff] at hrun
  obtain ⟨n, hn, hrun⟩ := hrun
  refine ⟨n, hn, ?_⟩
  split at hrun
  · rename_i hmany
    obtain ⟨size, hstep, hmemory⟩ := Option.bind_eq_some_iff.mp hrun
    rw [stepped] at hstep
    split at hstep
    · cases hstep
      by_cases hzero : Double.timesThreeHalves m = 0
      · rw [hzero, creatMemory_zero] at hmemory
        cases hmemory
        exact .inr (.inl ⟨hmany, Answer.noConfusion, rfl⟩)
      · obtain ⟨hdone, hmoved⟩ := creatMemory_based hb hx hzero hmemory
        exact .inr (.inr ⟨hmany, hdone, hmoved⟩)
    · cases hstep
  · cases hrun
    exact .inl ⟨by omega, rfl, rfl⟩

/-- What there is behind the statement that makes room for `m` bytes. -/
inductive Grows (τ : State ι) (x : ι) (b : CMByteArray) (m : Nat) : State ι × Answer → Prop
  | enough (h : m ≤ b.bufferLen) : Grows τ x b m (τ, .done)
  | throws (h : b.bufferLen < m) : Grows τ x b m (τ, .badArrayNewLength)
  | short {size : Nat} {υ : State ι} (h : b.bufferLen < m) (hmoved : Moved τ x b size υ) :
      Grows τ x b m (υ, .done)

theorem growAppend_grows (hb : Based τ b) (hx : τ.var x = some b)
    {s : State ι × Answer} (hrun : τ.growAppend x m = some s) : Grows τ x b m s := by
  rw [State.growAppend, hx, Option.bind_eq_bind, Option.bind_some] at hrun
  split at hrun
  · rename_i hless
    obtain ⟨size, hstep, hmemory⟩ := Option.bind_eq_some_iff.mp hrun
    obtain ⟨hle, hne⟩ := stepped_some hstep
    obtain ⟨hdone, hmoved⟩ := creatMemory_based hb hx (hne (by omega)) hmemory
    -- the old buffer would have to have the bytes of the new one
    exact absurd hmoved.le (by omega)
  · cases hrun
    exact .enough (by omega)

theorem growInsert_grows (hb : Based τ b) (hx : τ.var x = some b)
    {s : State ι × Answer} (hrun : τ.growInsert x m = some s) : Grows τ x b m s := by
  rw [State.growInsert, hx, Option.bind_eq_bind, Option.bind_some] at hrun
  split at hrun
  · rename_i hless
    by_cases hzero : (m - b.bufferLen + m) % uintSize = 0
    · rw [hzero, creatMemory_zero] at hrun
      cases hrun
      exact .throws hless
    · obtain ⟨hdone, hmoved⟩ := creatMemory_based hb hx hzero hrun
      obtain ⟨υ, answer⟩ := s
      cases hdone
      -- the length has wrapped, and the new buffer is too short
      exact .short hless hmoved
  · cases hrun
    exact .enough (by omega)

/-- What there is behind the statements that write `len` bytes. -/
structure Written (υ : State ι) (x : ι) (c : CMByteArray) (len : Nat) (s : State ι × Answer) :
    Prop where
  done : s.2 = .done
  fits : c.size + len ≤ c.bufferLen
  live : ∃ d, υ.buffers.cell c.buffer = some d
  var : s.1.var = update υ.var x (some { c with size := c.size + len })
  keeps : Keeps υ.buffers s.1.buffers

theorem writeEnd_written (hc : Based υ c) (hx : υ.var x = some c) (hlen : len ≠ 0)
    {s : State ι × Answer} (hrun : υ.writeEnd x byte len = some s) : Written υ x c len s := by
  rw [State.writeEnd, hx, Option.bind_eq_bind, Option.bind_some, Option.bind_eq_bind,
    Option.bind_eq_some_iff] at hrun
  obtain ⟨buffers, hcopy, hrun⟩ := hrun
  cases hrun
  obtain ⟨-, d, -, hd, hfits, -⟩ := memcpy_some hlen hcopy
  have hlength := hc.length d hd
  have hsmall := hc.small
  refine ⟨rfl, by omega, ⟨d, hd⟩, ?_, .memcpy hcopy⟩
  rw [Nat.mod_eq_of_lt (by omega)]
  rfl

theorem writeInside_written (hc : Based υ c) (hx : υ.var x = some c) (hpos : pos < c.size)
    {s : State ι × Answer} (hrun : υ.writeInside x pos byte len = some s) :
    Written υ x c len s := by
  rw [State.writeInside, hx, Option.bind_eq_bind, Option.bind_some, Option.bind_eq_bind,
    Option.bind_eq_some_iff] at hrun
  obtain ⟨buffers, hmove, hrun⟩ := hrun
  obtain ⟨buffers', hcopy, hrun⟩ := Option.bind_eq_some_iff.mp hrun
  cases hrun
  obtain ⟨-, d, -, hd, hfits, -⟩ := memcpy_some (by omega) hmove
  have hlength := hc.length d hd
  have hsmall := hc.small
  refine ⟨rfl, by omega, ⟨d, hd⟩, ?_, (Keeps.memcpy hmove).trans (.memcpy hcopy)⟩
  rw [Nat.mod_eq_of_lt (by omega)]
  rfl

/-! ## `append` and `insert`, where they come to their end -/

/-- The length of the buffer that `size` bytes are written into, for a counter of `n`. -/
def target (n : Int) (size : Nat) : Nat := if n ≤ 1 then size else Double.timesThreeHalves size

/-- The buffer of a variable is as long as the one that `len` more bytes are written into, and
neither it nor its counter has been freed. -/
def Roomy (σ : State ι) (b : CMByteArray) (len : Nat) : Prop :=
  ∃ n d, σ.counters.cell b.useCount = some n ∧ σ.buffers.cell b.buffer = some d ∧
    target n (b.size + len) ≤ b.bufferLen

/-- The lengths of one variable are those of its buffer, and the buffers of the others are as
long as they were. -/
structure Fitted (σ : State ι) (x : ι) (σ' : State ι) : Prop where
  keeps : Keeps σ.buffers σ'.buffers
  var : ∃ b, σ'.var = update σ.var x (some b) ∧ b.size ≤ b.bufferLen ∧ Based σ' b

/-- Bytes that have been written, from a state where `x` has the buffer of `c` for the one it
had. -/
theorem Written.fitted {s : State ι × Answer} (hw : Written υ x c len s) (hc : Based υ c)
    (hkeeps : Keeps σ.buffers υ.buffers) (hvar : υ.var = update σ.var x (some c)) :
    Fitted σ x s.1 where
  keeps := hkeeps.trans hw.keeps
  var := by
    have hbased := hc.keeps hw.keeps
    refine ⟨{ c with size := c.size + len }, ?_, hw.fits,
      ⟨hbased.small, hbased.below, hbased.null, hbased.length⟩⟩
    rw [hw.var, hvar, update_idem]

section Edit

variable {grow write : State ι → Option (State ι × Answer)} (hb : Based σ b)
  (hx : σ.var x = some b)
  (hgrow : ∀ τ c s, Based τ c → τ.var x = some c → grow τ = some s →
    Grows τ x c ((b.size + len) % uintSize) s)
  (hwrite : ∀ υ c s, Based υ c → υ.var x = some c → c.size = b.size → write υ = some s →
    Written υ x c len s)

include hb hx hgrow hwrite

/-- In an own buffer. -/
theorem edit_own {n : Int} (hn : σ.counters.cell b.useCount = some n) (hone : n ≤ 1)
    (hrun : andThen (grow σ) write = some (σ', answer)) :
    (answer ≠ .done ∧ σ' = σ) ∨ (answer = .done ∧ Roomy σ b len ∧ Fitted σ x σ') := by
  rcases andThen_some hrun with ⟨υ, hgrown, hwritten⟩ | ⟨hgrown, hthrown⟩
  · cases hgrow σ b _ hb hx hgrown with
    | enough hle =>
        have hw := hwrite σ b _ hb hx rfl hwritten
        obtain ⟨d, hd⟩ := hw.live
        refine .inr ⟨hw.done, ⟨n, d, hn, hd, ?_⟩, hw.fitted hb (.refl _) ?_⟩
        · rw [target, if_pos hone]
          exact hw.fits
        · rw [← hx, update_eq_self]
    | @short size υ hless hmoved =>
        -- the new buffer is no longer than the old one, which is too short
        have hmod := Nat.mod_le (b.size + len) uintSize
        have hw := hwrite υ _ _ (hmoved.based hb) hmoved.cell_var rfl hwritten
        have hfits : b.size + len ≤ size := hw.fits
        have hle := hmoved.le
        omega
  · cases hgrow σ b _ hb hx hgrown with
    | enough _ => exact absurd rfl hthrown
    | throws _ => exact .inl ⟨hthrown, rfl⟩
    | short _ _ => exact absurd rfl hthrown

omit hx in
/-- In the copy of a shared one, which has room for the new size if that has not wrapped. -/
theorem edit_shared {n : Int} (hn : σ.counters.cell b.useCount = some n) (hmany : 1 < n)
    (hmoved : Moved σ x b (Double.timesThreeHalves ((b.size + len) % uintSize)) τ)
    (hrun : andThen (grow τ) write = some (σ', answer)) :
    answer = .done ∧ Roomy σ b len ∧ Fitted σ x σ' := by
  have hstep := Double.le_timesThreeHalves ((b.size + len) % uintSize)
  have hbased := hmoved.based hb
  rcases andThen_some hrun with ⟨υ, hgrown, hwritten⟩ | ⟨hgrown, hthrown⟩
  · cases hgrow τ _ _ hbased hmoved.cell_var hgrown with
    | enough _ =>
        have hw := hwrite τ _ _ hbased hmoved.cell_var rfl hwritten
        obtain ⟨d, hd⟩ := hmoved.live
        have hfits : b.size + len ≤ Double.timesThreeHalves ((b.size + len) % uintSize) := hw.fits
        have hle := hmoved.le
        have hsmall := hb.small
        have hwrap : (b.size + len) % uintSize = b.size + len := Nat.mod_eq_of_lt (by omega)
        refine ⟨hw.done, ⟨n, d, hn, hd, ?_⟩, hw.fitted hbased hmoved.keeps hmoved.var⟩
        rw [target, if_neg (by omega), ← hwrap]
        exact hle
    | short hless _ => exact absurd hless (Nat.not_lt.mpr hstep)
  · cases hgrow τ _ _ hbased hmoved.cell_var hgrown with
    | enough _ => exact absurd rfl hthrown
    | throws hless => exact absurd hless (Nat.not_lt.mpr hstep)
    | short _ _ => exact absurd rfl hthrown

/-- **Where bytes are added.** A call that comes to its end throws and has changed nothing, or
has written the bytes, and then there was room for them. -/
theorem edit_cases
    (hrun : andThen (σ.detach x ((b.size + len) % uintSize)) (fun τ => andThen (grow τ) write) =
      some (σ', answer)) :
    (answer ≠ .done ∧ σ' = σ) ∨ (answer = .done ∧ Roomy σ b len ∧ Fitted σ x σ') := by
  rcases andThen_some hrun with ⟨τ, hdetach, hrest⟩ | ⟨hdetach, hthrown⟩
  · obtain ⟨n, hn, ⟨hone, -, rfl⟩ | ⟨-, hne, -⟩ | ⟨hmany, -, hmoved⟩⟩ := detach_cases hb hx hdetach
    · exact edit_own hb hx hgrow hwrite hn hone hrest
    · exact absurd rfl hne
    · exact .inr (edit_shared hb hgrow hwrite hn hmany hmoved hrest)
  · obtain ⟨n, hn, ⟨-, hdone, -⟩ | ⟨-, -, rfl⟩ | ⟨-, hdone, -⟩⟩ := detach_cases hb hx hdetach
    · exact absurd hdone hthrown
    · exact .inl ⟨hthrown, rfl⟩
    · exact absurd hdone hthrown

end Edit

theorem appendPtr_cases (hb : Based σ b) (hx : σ.var x = some b) (hlen : len ≠ 0)
    (hrun : σ.appendPtr x byte len = some (σ', answer)) :
    (answer ≠ .done ∧ σ' = σ) ∨ (answer = .done ∧ Roomy σ b len ∧ Fitted σ x σ') := by
  rw [appendPtr_steps hx hlen] at hrun
  exact edit_cases hb hx (fun _ _ _ hb hx h => growAppend_grows hb hx h)
    (fun _ _ _ hb hx _ h => writeEnd_written hb hx hlen h) hrun

theorem insertPtr_cases (hb : Based σ b) (hx : σ.var x = some b) (hlen : len ≠ 0)
    (hpos : pos < b.size) (hrun : σ.insertPtr x pos byte len = some (σ', answer)) :
    (answer ≠ .done ∧ σ' = σ) ∨ (answer = .done ∧ Roomy σ b len ∧ Fitted σ x σ') := by
  rw [insertPtr_steps hx hlen hpos] at hrun
  exact edit_cases hb hx (fun _ _ _ hb hx h => growInsert_grows hb hx h)
    (fun _ _ _ hb hx hsize h => writeInside_written hb hx (hsize ▸ hpos) h) hrun

/-! ## All runs -/

/-- No size is over the length of the buffer, which is the one that the variable says. -/
def Bounded (σ : State ι) : Prop :=
  ∀ x b, σ.var x = some b → b.size ≤ b.bufferLen ∧ Based σ b

theorem Bounded.update (h : Bounded σ) {v : Option CMByteArray}
    (hkeeps : Keeps σ.buffers σ'.buffers) (hvar : σ'.var = update σ.var x v)
    (hv : ∀ b, v = some b → b.size ≤ b.bufferLen ∧ Based σ' b) : Bounded σ' := by
  intro y c hy
  rw [hvar] at hy
  by_cases hyx : y = x
  · rw [hyx, update_self] at hy
    exact hv c hy
  · rw [update_of_ne hyx] at hy
    obtain ⟨hle, hbased⟩ := h y c hy
    exact ⟨hle, hbased.keeps hkeeps⟩

theorem Bounded.fitted (h : Bounded σ) (hf : Fitted σ x σ') : Bounded σ' := by
  obtain ⟨b, hvar, hle, hbased⟩ := hf.var
  refine h.update hf.keeps hvar fun c hc => ?_
  cases hc
  exact ⟨hle, hbased⟩

theorem construct_bounded (h : Bounded σ) (hrun : σ.construct x = some (σ', answer)) :
    Bounded σ' := by
  cases hrun
  refine h.update (.refl _) rfl fun b hb => ?_
  cases hb
  refine ⟨Nat.le_refl 0, Nat.two_pow_pos 32, σ.buffers.null_lt_brk, fun _ => rfl, fun d hd => ?_⟩
  exact absurd rfl (σ.buffers.ne_null hd)

/-- A variable is constructed with a buffer. -/
theorem construct_buffer_bounded (h : Bounded σ) {bytes : List Byte}
    {buffers : Heap (List Byte)} {counters : Heap Int} {useCount : Ptr} {d : List Byte}
    (hkeeps : Keeps (σ.buffers.alloc bytes).2 buffers)
    (hd : buffers.cell σ.buffers.brk = some d) (hlen : d.length = len) (hsmall : len < uintSize)
    (hle : m ≤ len) :
    Bounded ({ σ with buffers := buffers, counters := counters }.set x
      { buffer := σ.buffers.brk, bufferLen := len, size := m, useCount := useCount }) := by
  refine h.update ((Keeps.alloc _ _).trans hkeeps) rfl fun b hb => ?_
  cases hb
  exact ⟨hle, .of_cell hd hlen hsmall⟩

theorem constructSize_bounded (h : Bounded σ) (hsmall : size < uintSize)
    (hrun : σ.constructSize x size = some (σ', answer)) : Bounded σ' := by
  rw [State.constructSize] at hrun
  split at hrun
  · cases hrun
    exact h
  · cases hrun
    exact construct_buffer_bounded h (.refl _) (update_self _ _ _) List.length_replicate hsmall
      (Nat.zero_le size)

theorem constructPtrLen_bounded (h : Bounded σ) {str : List Byte} (hsmall : len < uintSize)
    (hrun : σ.constructPtrLen x str len = some (σ', answer)) : Bounded σ' := by
  rw [State.constructPtrLen] at hrun
  split at hrun
  · cases hrun
    exact h
  · rename_i hlen
    obtain ⟨buffers, hcopy, hrun⟩ := Option.bind_eq_some_iff.mp hrun
    cases hrun
    obtain ⟨-, d, d', hd, -, hlength, hcell⟩ := memcpy_some hlen hcopy
    rw [Heap.alloc_cell, update_self, Option.some_inj] at hd
    subst hd
    rw [List.length_replicate] at hlength
    refine construct_buffer_bounded h (.memcpy hcopy) ?_ hlength hsmall (Nat.le_refl len)
    rw [hcell]
    exact update_self _ _ _

theorem share_bounded {y : ι} (h : Bounded σ) (hrun : σ.share x y = some (σ', answer)) :
    Bounded σ' := by
  rw [State.share, Option.bind_eq_bind, Option.bind_eq_some_iff] at hrun
  obtain ⟨o, ho, hrun⟩ := hrun
  have hset (counters : Heap Int) : Bounded ({ σ with counters := counters }.set x o) := by
    refine h.update (.refl _) rfl fun b hb => ?_
    cases hb
    obtain ⟨hle, hbased⟩ := h y o ho
    exact ⟨hle, hbased.keeps (.refl _)⟩
  split at hrun
  · cases hrun
    exact hset σ.counters
  · obtain ⟨counters, -, hrun⟩ := Option.bind_eq_some_iff.mp hrun
    cases hrun
    exact hset counters

/-- Another variable's buffer may go, but no buffer gets another length. -/
theorem freeMemory_keeps (hrun : σ.freeMemory x = some τ) :
    Keeps σ.buffers τ.buffers ∧ ∃ v, τ.var = update σ.var x v := by
  rw [State.freeMemory, Option.bind_eq_bind, Option.bind_eq_some_iff] at hrun
  obtain ⟨b, hx, hrun⟩ := hrun
  have hself : σ.var = update σ.var x (some b) := by rw [← hx, update_eq_self]
  split at hrun
  · cases hrun
    exact ⟨.refl _, _, hself⟩
  · obtain ⟨n, -, hrun⟩ := Option.bind_eq_some_iff.mp hrun
    split at hrun
    · obtain ⟨counters, -, hrun⟩ := Option.bind_eq_some_iff.mp hrun
      obtain ⟨buffers, hdelete, hrun⟩ := Option.bind_eq_some_iff.mp hrun
      cases hrun
      exact ⟨.deleteBuffer hdelete, _, rfl⟩
    · obtain ⟨counters, -, hrun⟩ := Option.bind_eq_some_iff.mp hrun
      cases hrun
      exact ⟨.refl _, _, hself⟩

theorem destroy_bounded (h : Bounded σ) (hrun : σ.destroy x = some (σ', answer)) :
    Bounded σ' := by
  rw [State.destroy, Option.bind_eq_bind, Option.bind_eq_some_iff] at hrun
  obtain ⟨τ, hfree, hrun⟩ := hrun
  cases hrun
  obtain ⟨hkeeps, v, hvar⟩ := freeMemory_keeps hfree
  refine h.update (x := x) hkeeps ?_ (fun b hb => absurd hb (Option.some_ne_none b).symm)
  show update τ.var x none = _
  rw [hvar, update_idem]

theorem appendPtr_bounded (h : Bounded σ) (hrun : σ.appendPtr x byte len = some (σ', answer)) :
    Bounded σ' := by
  by_cases hlen : len = 0
  · rw [State.appendPtr, if_pos hlen] at hrun
    cases hrun
    exact h
  · cases hx : σ.var x with
    | none =>
        rw [State.appendPtr, if_neg hlen, hx] at hrun
        cases hrun
    | some b =>
        rcases appendPtr_cases (h x b hx).2 hx hlen hrun with ⟨-, rfl⟩ | ⟨-, -, hf⟩
        · exact h
        · exact h.fitted hf

theorem insertPtr_bounded (h : Bounded σ)
    (hrun : σ.insertPtr x pos byte len = some (σ', answer)) : Bounded σ' := by
  cases hx : σ.var x with
  | none =>
      rw [State.insertPtr, hx] at hrun
      cases hrun
  | some b =>
      by_cases hnothing : pos > b.size ∨ len = 0
      · rw [insertPtr_nothing hx hnothing] at hrun
        cases hrun
        exact h
      · obtain ⟨hle, hlen⟩ := not_or.mp hnothing
        by_cases hend : pos = b.size
        · subst hend
          rw [insertPtr_end hx hlen] at hrun
          exact appendPtr_bounded h hrun
        · rcases insertPtr_cases (h x b hx).2 hx hlen (by omega) hrun with
            ⟨-, rfl⟩ | ⟨-, -, hf⟩
          · exact h
          · exact h.fitted hf

/-- One operation. -/
theorem run_bounded (h : Bounded σ) {call : Call ι} (hl : call.Legal σ)
    (hrun : call.run σ = .ok (σ', answer)) : Bounded σ' := by
  cases call with
  | construct x => exact construct_bounded h (noexcept_some hrun)
  | constructSize x size => exact constructSize_bounded h hl.2 (noexcept_some hrun)
  | constructPtrLen x str => exact constructPtrLen_bounded h hl.2 (noexcept_some hrun)
  | constructStr x str =>
      exact constructPtrLen_bounded h (Nat.mod_lt _ (Nat.two_pow_pos 32)) (noexcept_some hrun)
  | copyConstruct x other => exact share_bounded h (noexcept_some hrun)
  | moveConstruct x other => exact share_bounded h (noexcept_some hrun)
  | copyAssign x other => exact share_bounded h (noexcept_some hrun)
  | moveAssign x other => exact share_bounded h (noexcept_some hrun)
  | append x str =>
      obtain ⟨⟨byte, len⟩, -, happend⟩ := Option.bind_eq_some_iff.mp (returned_some hrun)
      exact appendPtr_bounded h happend
  | insert x pos str =>
      obtain ⟨⟨byte, len⟩, -, hinsert⟩ := Option.bind_eq_some_iff.mp (returned_some hrun)
      exact insertPtr_bounded h hinsert
  | destroy x => exact destroy_bounded h (noexcept_some hrun)

/-- Whatever the operations are, and in whatever order. -/
theorem reachable_bounded (h : (runs ι).Reachable σ) : Bounded σ := by
  have hinductive : (runs ι).Inductive Bounded := by
    refine ⟨fun τ hτ => ?_, fun τ call τ' hτ hstep => ?_⟩
    · rw [show τ = State.empty from hτ]
      exact fun x b hx => nomatch hx
    · obtain ⟨hl, answer, hrun⟩ := hstep
      exact run_bounded hτ hl hrun
  exact hinductive.invariant σ h

end LearnSpace.Network
