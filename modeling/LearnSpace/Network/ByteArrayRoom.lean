import LearnSpace.ByteArrays.Edits
import LearnSpace.Network.ByteArrayGrowth

/-!
# Room to grow

Where there is room `append` and `insert` come to their end, and the bytes are where they should
be: in an own buffer the new bytes are written behind the old ones, or the tail is moved first;
a shared one is copied before, up to the length of the new one. Where there is none they do not,
so `Roomy` says exactly when growing stays inside the bounds (`append_insert_iff`).
-/

namespace LearnSpace.Network

open Keel Function
open KvStore (Byte Source readAt writeAt readAt_eq writeAt_eq read_bytes)

variable {ι : Type} [DecidableEq ι] {σ σ' τ υ : State ι} {x : ι} {b c : CMByteArray}
  {xs bytes d : List Byte} {len pos size : Nat} {n : Int}

/-! ## The bytes of a variable -/

omit [DecidableEq ι] in
theorem content_live (hx : σ.var x = some b) (hd : σ.buffers.cell b.buffer = some d)
    (hfits : b.size ≤ d.length) : σ.content x = some (d.take b.size) := by
  rw [State.content, State.data, hx, Option.map_some, Option.bind_eq_bind, Option.bind_some]
  dsimp only
  rw [readAt_eq hd (by omega), List.drop_zero]

omit [DecidableEq ι] in
/-- The size is the number of bytes. -/
theorem size_of_content (hx : σ.var x = some b) (hcontent : σ.content x = some xs) :
    xs.length = b.size := by
  rw [State.content, State.data, hx, Option.map_some, Option.bind_eq_bind, Option.bind_some]
    at hcontent
  exact ByteArrays.length_readAt hcontent

theorem memcpy_bytes (h : Heap (List Byte)) (p : Ptr) (off : Nat) :
    memcpy h p off (.bytes bytes) bytes.length = writeAt h p off bytes := by
  rw [memcpy, read_bytes, Option.bind_eq_bind, Option.bind_some]

/-! ## Writing -/

/-- `x` has the bytes `xs`, and room for `len` more. -/
structure Ready (υ : State ι) (x : ι) (xs : List Byte) (len : Nat) (c : CMByteArray)
    (d : List Byte) : Prop where
  var : υ.var x = some c
  cell : υ.buffers.cell c.buffer = some d
  length : d.length = c.bufferLen
  small : c.bufferLen < uintSize
  size : c.size = xs.length
  fits : xs.length + len ≤ d.length
  front : d.take xs.length = xs

/-- `x` has the bytes `ys`, and they are within its buffer. -/
def Has (σ : State ι) (x : ι) (ys : List Byte) : Prop :=
  σ.content x = some ys ∧ ∃ b, σ.var x = some b ∧ b.size ≤ b.bufferLen

/-- Where the bytes have been written. -/
theorem Ready.has (h : Ready υ x xs len c d) {buffers : Heap (List Byte)} {d' ys : List Byte}
    (hcell : buffers.cell c.buffer = some d') (hlength : d'.length = d.length)
    (hys : d'.take (xs.length + len) = ys) :
    Has ({ υ with buffers := buffers }.set x { c with size := (c.size + len) % uintSize }) x
      ys := by
  have hfits := h.fits
  have hlen := h.length
  have hsmall := h.small
  rw [h.size, Nat.mod_eq_of_lt (by omega)]
  have hvar : ({ υ with buffers := buffers }.set x { c with size := xs.length + len }).var x =
      some { c with size := xs.length + len } := update_self _ _ _
  refine ⟨?_, _, hvar, ?_⟩
  · rw [← hys]
    refine content_live hvar hcell ?_
    show xs.length + len ≤ _
    omega
  · show xs.length + len ≤ c.bufferLen
    omega

theorem Ready.writeEnd (h : Ready υ x xs bytes.length c d) :
    ∃ σ', υ.writeEnd x (.bytes bytes) bytes.length = some (σ', .done) ∧ Has σ' x (xs ++ bytes) := by
  obtain ⟨buffers, hwrite, hcell⟩ := writeAt_eq xs.length bytes h.cell h.fits
  refine ⟨{ υ with buffers := buffers }.set x
    { c with size := (c.size + bytes.length) % uintSize }, ?_, ?_⟩
  · rw [State.writeEnd, h.var, Option.bind_eq_bind, Option.bind_some, memcpy_bytes, h.size, hwrite]
    rfl
  · refine h.has (by rw [hcell, update_self]) ?_ ?_
    · have hfits := h.fits
      simp only [List.length_append, List.length_take, List.length_drop]
      omega
    · rw [h.front, ← List.length_append, List.take_left]

/-- The tail is moved, and the bytes are written where it was. -/
theorem take_inserted (hpos : pos ≤ xs.length) (hfits : xs.length + bytes.length ≤ d.length)
    (hfront : d.take xs.length = xs) {d' : List Byte}
    (hd' : d' = d.take (pos + bytes.length) ++ xs.drop pos ++ d.drop (xs.length + bytes.length)) :
    (d'.take pos ++ bytes ++ d'.drop (pos + bytes.length)).take (xs.length + bytes.length) =
      xs.take pos ++ bytes ++ xs.drop pos := by
  have hfirst : (d.take (pos + bytes.length)).length = pos + bytes.length := by
    rw [List.length_take]
    omega
  have htake : d'.take pos = xs.take pos := by
    rw [hd', List.append_assoc, List.take_append_of_le_length (by omega), List.take_take,
      Nat.min_eq_left (by omega), ← hfront, List.take_take, Nat.min_eq_left (by omega)]
  have hdrop : d'.drop (pos + bytes.length) =
      xs.drop pos ++ d.drop (xs.length + bytes.length) := by
    rw [hd', List.append_assoc, List.drop_left' hfirst]
  have hlength : xs.length + bytes.length = (xs.take pos ++ bytes ++ xs.drop pos).length := by
    simp only [List.length_append, List.length_take, List.length_drop]
    omega
  rw [htake, hdrop, ← List.append_assoc, hlength, List.take_left]

theorem Ready.writeInside (h : Ready υ x xs bytes.length c d) (hpos : pos ≤ xs.length) :
    ∃ σ', υ.writeInside x pos (.bytes bytes) bytes.length = some (σ', .done) ∧
      Has σ' x (xs.take pos ++ bytes ++ xs.drop pos) := by
  have hfits := h.fits
  have htail : (xs.drop pos).length = xs.length - pos := List.length_drop
  have hread : readAt υ.buffers c.buffer pos (xs.length - pos) = some (xs.drop pos) := by
    rw [readAt_eq h.cell (by omega), ← List.drop_take, h.front]
  obtain ⟨buffers, hmove, hcell⟩ := writeAt_eq (pos + bytes.length) (xs.drop pos) h.cell (by omega)
  have hend : pos + bytes.length + (xs.drop pos).length = xs.length + bytes.length := by omega
  rw [hend] at hcell
  have hmoved : buffers.cell c.buffer = some (d.take (pos + bytes.length) ++ xs.drop pos ++
      d.drop (xs.length + bytes.length)) := by rw [hcell, update_self]
  have hlength : (d.take (pos + bytes.length) ++ xs.drop pos ++
      d.drop (xs.length + bytes.length)).length = d.length := by
    simp only [List.length_append, List.length_take, List.length_drop]
    omega
  obtain ⟨buffers', hwrite, hcell'⟩ := writeAt_eq pos bytes hmoved (by omega)
  refine ⟨{ υ with buffers := buffers' }.set x
    { c with size := (c.size + bytes.length) % uintSize }, ?_, ?_⟩
  · rw [State.writeInside, h.var, Option.bind_eq_bind, Option.bind_some, h.size, memcpy,
      Source.read, hread]
    simp only [Option.bind_eq_bind, Option.bind_some, hmove, memcpy_bytes, hwrite, Option.pure_def]
  · refine h.has (by rw [hcell', update_self]) ?_ (take_inserted hpos hfits h.front rfl)
    simp only [List.length_append, List.length_take, List.length_drop]
    omega

/-! ## Making a shared buffer an own one -/

/-- A copy of the front of a buffer that others have, too. -/
theorem creatMemory_shared (hx : σ.var x = some b) (hn : σ.counters.cell b.useCount = some n)
    (hmany : 1 < n) (hd : σ.buffers.cell b.buffer = some d) (hsize : size ≠ 0)
    (hle : size ≤ d.length) :
    ∃ σ', σ.creatMemory x size = some (σ', .done) ∧
      σ'.var x = some { b with buffer := σ.buffers.brk, bufferLen := size } ∧
      σ'.buffers.cell σ.buffers.brk = some (d.take size) := by
  have hne : b.buffer ≠ (σ.buffers.alloc (List.replicate size 0)).1 :=
    Nat.ne_of_lt (σ.buffers.lt_brk hd)
  have hold : (σ.buffers.alloc (List.replicate size 0)).2.cell b.buffer = some d := by
    rw [Heap.alloc_cell, update_of_ne hne, hd]
  have hnew : (σ.buffers.alloc (List.replicate size 0)).2.cell
      (σ.buffers.alloc (List.replicate size 0)).1 = some (List.replicate size 0) := by
    rw [Heap.alloc_cell, update_self]
  have hlength : (d.take size).length = size := List.length_take_of_le hle
  obtain ⟨buffers, hwrite, hcell⟩ := writeAt_eq 0 (d.take size) hnew
    (by rw [List.length_replicate]; omega)
  have hcopy : memcpy (σ.buffers.alloc (List.replicate size 0)).2
      (σ.buffers.alloc (List.replicate size 0)).1 0 (.buffer b.buffer 0) size = some buffers := by
    rw [memcpy, Source.read, readAt_eq hold (by omega), List.drop_zero, Option.bind_eq_bind,
      Option.bind_some, hwrite]
  obtain ⟨counters, hsub, -⟩ := countSub_eq hn (by omega)
  refine ⟨{ σ with buffers := buffers, counters := counters }.set x
    { b with buffer := σ.buffers.brk, bufferLen := size }, ?_, update_self _ _ _, ?_⟩
  · rw [State.creatMemory, if_neg hsize, hx, Option.bind_eq_bind, Option.bind_some]
    simp only [Option.bind_eq_bind, Option.bind_some, hcopy, Heap.load, hn, hsub,
      if_neg (show n ≠ 1 by omega), Option.pure_def]
    rfl
  · show buffers.cell σ.buffers.brk = _
    rw [hcell]
    refine (update_self _ _ _).trans ?_
    rw [hlength, Nat.zero_add, List.drop_replicate, Nat.sub_self]
    simp only [List.take_zero, List.nil_append, List.replicate_zero, List.append_nil]

theorem le_target (n : Int) (size : Nat) : size ≤ target n size := by
  rw [target]
  split
  · exact Nat.le_refl size
  · exact Double.le_timesThreeHalves size

/-- With room `append` and `insert` come to where they write. -/
theorem edit_ready {grow write : State ι → Option (State ι × Answer)} (hb : Based σ b)
    (hx : σ.var x = some b) (hsize : b.size ≤ b.bufferLen) (hcontent : σ.content x = some xs)
    (hlen : len ≠ 0) (hroomy : Roomy σ b len)
    (hgrow : ∀ τ c, τ.var x = some c → b.size + len ≤ c.bufferLen → grow τ = some (τ, .done)) :
    ∃ υ c d, Ready υ x xs len c d ∧
      andThen (σ.detach x ((b.size + len) % uintSize)) (fun τ => andThen (grow τ) write) =
        write υ := by
  obtain ⟨n, d, hn, hd, htarget⟩ := hroomy
  have hlength := hb.length d hd
  have hsmall := hb.small
  have hle := le_target n (b.size + len)
  have hxs := size_of_content hx hcontent
  rw [content_live hx hd (by omega), ← hxs, Option.some_inj] at hcontent
  rw [Nat.mod_eq_of_lt (by omega), State.detach, hx]
  by_cases hone : n ≤ 1
  · refine ⟨σ, b, d, ⟨hx, hd, hlength, hsmall, hxs.symm, by omega, hcontent⟩, ?_⟩
    simp only [Heap.load, hn, Option.bind_eq_bind, Option.bind_some,
      if_neg (Int.not_lt.mpr hone), Option.pure_def, andThen, hgrow σ b hx (by omega)]
  · rw [target, if_neg hone] at htarget hle
    have hstep : stepped (b.size + len) = some (Double.timesThreeHalves (b.size + len)) :=
      if_pos (Nat.lt_of_le_of_lt htarget hsmall)
    obtain ⟨τ, hmemory, hvar, hcell⟩ := creatMemory_shared hx hn (by omega) hd
      (show Double.timesThreeHalves (b.size + len) ≠ 0 by omega) (by omega)
    have htake : (d.take (Double.timesThreeHalves (b.size + len))).length =
        Double.timesThreeHalves (b.size + len) := List.length_take_of_le (by omega)
    refine ⟨τ, _, _, ⟨hvar, hcell, htake, ?_, hxs.symm, by omega, ?_⟩, ?_⟩
    · exact Nat.lt_of_le_of_lt htarget hsmall
    · rw [List.take_take, Nat.min_eq_left (by omega), hcontent]
    · simp only [Heap.load, hn, Option.bind_eq_bind, Option.bind_some, if_pos (Int.not_le.mp hone),
        hstep, hmemory, andThen, hgrow τ _ hvar hle]

/-! ## The two methods -/

/-- A call comes to its end, with all copies inside the buffers, and `x` has the bytes `ys`
then, within its buffer. -/
def Leaves (σ : State ι) (call : Call ι) (x : ι) (ys : List Byte) : Prop :=
  ∃ σ', call.run σ = .ok (σ', .done) ∧ Has σ' x ys

/-- Room for more bytes is needed only if there are any. -/
def Room (σ : State ι) (b : CMByteArray) (bytes : List Byte) : Prop :=
  bytes = [] ∨ Roomy σ b bytes.length

theorem growAppend_enough {m : Nat} (hx : τ.var x = some c) (hle : m ≤ c.bufferLen) :
    τ.growAppend x m = some (τ, .done) := by
  rw [State.growAppend, hx, Option.bind_eq_bind, Option.bind_some, if_neg (Nat.not_lt.mpr hle)]

theorem growInsert_enough {m : Nat} (hx : τ.var x = some c) (hle : m ≤ c.bufferLen) :
    τ.growInsert x m = some (τ, .done) := by
  rw [State.growInsert, hx, Option.bind_eq_bind, Option.bind_some, if_neg (Nat.not_lt.mpr hle)]

omit [DecidableEq ι] in
/-- Without bytes nothing is to be done. -/
theorem Bounded.has (h : Bounded σ) (hx : σ.var x = some b) (hcontent : σ.content x = some xs) :
    Has σ x xs := ⟨hcontent, b, hx, (h x b hx).1⟩

theorem appendPtr_iff (h : Bounded σ) (hx : σ.var x = some b) (hcontent : σ.content x = some xs) :
    (∃ σ', σ.appendPtr x (.bytes bytes) bytes.length = some (σ', .done) ∧
      Has σ' x (xs ++ bytes)) ↔ Room σ b bytes := by
  obtain ⟨hsize, hb⟩ := h x b hx
  by_cases hnil : bytes = []
  · subst hnil
    refine ⟨fun _ => .inl rfl, fun _ => ⟨σ, if_pos rfl, ?_⟩⟩
    rw [List.append_nil]
    exact h.has hx hcontent
  · have hlen : bytes.length ≠ 0 := mt List.length_eq_zero_iff.mp hnil
    constructor
    · rintro ⟨σ', hrun, -⟩
      rcases appendPtr_cases hb hx hlen hrun with ⟨hne, -⟩ | ⟨-, hroomy, -⟩
      · exact absurd rfl hne
      · exact .inr hroomy
    · intro hroom
      obtain ⟨υ, c, d, hready, hsteps⟩ := edit_ready hb hx hsize hcontent hlen
        (hroom.resolve_left hnil) (fun _ _ hτ hle =>
          growAppend_enough hτ (Nat.le_trans (Nat.mod_le _ uintSize) hle))
      obtain ⟨σ', hwrite, hhas⟩ := hready.writeEnd
      exact ⟨σ', (appendPtr_steps hx hlen).trans (hsteps.trans hwrite), hhas⟩

theorem insertPtr_iff (h : Bounded σ) (hx : σ.var x = some b) (hcontent : σ.content x = some xs)
    (hpos : pos ≤ xs.length) :
    (∃ σ', σ.insertPtr x pos (.bytes bytes) bytes.length = some (σ', .done) ∧
      Has σ' x (xs.take pos ++ bytes ++ xs.drop pos)) ↔ Room σ b bytes := by
  obtain ⟨hsize, hb⟩ := h x b hx
  have hxs := size_of_content hx hcontent
  by_cases hnil : bytes = []
  · subst hnil
    refine ⟨fun _ => .inl rfl, fun _ => ⟨σ, insertPtr_nothing hx (.inr rfl), ?_⟩⟩
    rw [List.append_nil, List.take_append_drop]
    exact h.has hx hcontent
  · have hlen : bytes.length ≠ 0 := mt List.length_eq_zero_iff.mp hnil
    by_cases hend : pos = b.size
    · subst hend
      rw [insertPtr_end hx hlen, ← hxs, List.take_length, List.drop_length, List.append_nil]
      exact appendPtr_iff h hx hcontent
    · have hbefore : pos < b.size := by omega
      constructor
      · rintro ⟨σ', hrun, -⟩
        rcases insertPtr_cases hb hx hlen hbefore hrun with ⟨hne, -⟩ | ⟨-, hroomy, -⟩
        · exact absurd rfl hne
        · exact .inr hroomy
      · intro hroom
        obtain ⟨υ, c, d, hready, hsteps⟩ := edit_ready hb hx hsize hcontent hlen
          (hroom.resolve_left hnil) (fun _ _ hτ hle =>
            growInsert_enough hτ (Nat.le_trans (Nat.mod_le _ uintSize) hle))
        obtain ⟨σ', hwrite, hhas⟩ := hready.writeInside hpos
        exact ⟨σ', (insertPtr_steps hx hlen hbefore).trans (hsteps.trans hwrite), hhas⟩

theorem leaves_iff {call : Call ι} {r : Option (State ι × Answer)} {ys : List Byte}
    (hrun : call.run σ = returned r) :
    Leaves σ call x ys ↔ ∃ σ', r = some (σ', .done) ∧ Has σ' x ys := by
  refine exists_congr fun σ' => and_congr_left fun _ => ?_
  rw [hrun]
  refine ⟨returned_some, ?_⟩
  rintro rfl
  rfl

/-- **Growing inside the bounds.** In every state that operations lead to, for every array with
the bytes `xs` and all new ones, `append` and `insert` at a position up to the size come to their
end, with every copy inside the buffers, the bytes where they should be and the size within the
buffer, exactly if there are no new bytes, or neither buffer nor counter has been freed and the
buffer is as long as needed: by the new size for an own one, and by 1.5 times that for a shared
one. A longer buffer is never made. A `memcpy` whose ranges overlap is read as `memmove`. -/
theorem append_insert_iff (hreach : (runs ι).Reachable σ) (hx : σ.var x = some b)
    (hcontent : σ.content x = some xs) (hpos : pos ≤ xs.length) :
    (Leaves σ (.append x (.ptr bytes)) x (xs ++ bytes) ↔ Room σ b bytes) ∧
      (Leaves σ (.insert x pos (.ptr bytes)) x (xs.take pos ++ bytes ++ xs.drop pos) ↔
        Room σ b bytes) := by
  have h := reachable_bounded hreach
  exact ⟨(leaves_iff rfl).trans (appendPtr_iff h hx hcontent),
    (leaves_iff rfl).trans (insertPtr_iff h hx hcontent hpos)⟩

theorem reachable_call {answer : Answer} (hreach : (runs ι).Reachable σ) (c : Call ι)
    (hlegal : c.Legal σ) (hrun : c.run σ = .ok (σ', answer)) : (runs ι).Reachable σ' :=
  .step hreach ⟨hlegal, answer, hrun⟩

/-- A byte goes behind and between the three of a copy that shares its buffer of eight bytes. -/
theorem append_insert_iff_eight :
    ∃ σ b, (runs Bool).Reachable σ ∧ σ.var false = some b ∧
      σ.counters.load b.useCount = some 2 ∧
      (Leaves σ (.append false (.ptr [120])) false ([1, 2, 3] ++ [120]) ↔ Room σ b [120]) ∧
      (Leaves σ (.insert false 1 (.ptr [120])) false
          (List.take 1 [1, 2, 3] ++ [120] ++ List.drop 1 [1, 2, 3]) ↔ Room σ b [120]) := by
  have hlt : Arg.Legal (ι := Bool) State.empty (.ptr [1, 2, 3]) := show 3 < uintSize by decide
  have hnew := reachable_call (ι := Bool) (.init rfl) (.constructSize true 8) ⟨rfl, by decide⟩ rfl
  have hthree := reachable_call hnew (.append true (.ptr [1, 2, 3])) ⟨nofun, hlt⟩ rfl
  have hshared := reachable_call hthree (.copyConstruct false true) ⟨rfl, nofun⟩ rfl
  exact ⟨_, _, hshared, rfl, rfl, append_insert_iff hshared rfl rfl (by decide)⟩

/-- `CMByteArray()`. -/
def defaultArray : State Unit where
  buffers := .empty
  counters := (Heap.empty.alloc 1).2
  var := update (fun _ => none) () (some { useCount := 1 })

/-- The first byte is copied out of a null buffer. -/
theorem append_default_undefined :
    (runs Unit).Reachable defaultArray ∧ defaultArray.content () = some [] ∧
      (Call.append () (.ptr [120])).run defaultArray = .error .undefined ∧
      ¬ Leaves defaultArray (.append () (.ptr [120])) () ([] ++ [120]) := by
  have hrun : (Call.append () (.ptr [120])).run defaultArray = .error .undefined := rfl
  have hlegal : (Call.construct ()).Legal (State.empty : State Unit) := rfl
  refine ⟨.step (.init rfl) ⟨hlegal, .done, rfl⟩, rfl, hrun, ?_⟩
  rintro ⟨σ', hdone, -⟩
  rw [hrun] at hdone
  cases hdone

end LearnSpace.Network
