import LearnSpace.ByteArrays.Edits

/-!
# Insertion in the key-value store

`insertElement` moves the bytes from `pos` on to the old end of the array, and not to the
end of the gap, before it copies the new bytes over `pos`. So behind the new bytes stands
what is found `k` bytes into the tail, the moved tail and the rest of the buffer
(`insertElement_content`), where `k` is the number of new bytes. That is the tail when there
is none, when as many bytes are inserted as it has, and when the bytes happen to repeat.
-/

namespace LearnSpace.ByteArrays

open Keel Function KvStore
open KvStore.Pool (Frame)

variable {ι : Type} [Fintype ι] [DecidableEq ι] {σ σ' : Pool ι} {x : ι} {pos k : Nat}
  {src : Source} {d : List Byte}

/-! ## What an insertion is to do -/

/-- The bytes `d` are at `src`, which does not point into the buffer of `x`. -/
def Elsewhere (σ : Pool ι) (x : ι) (src : Source) (d : List Byte) : Prop :=
  src.read σ.data.heap d.length = some d ∧
    match src with
    | .bytes _ => True
    | .buffer p _ => d = [] ∨ (p ≠ σ.data.holder x ∧ ∃ y, σ.data.holder y = p)

/-- The outcome of inserting `d` at `pos`: the bytes stand between what was before and what
was behind `pos`; or `pos` is behind the end, and the call throws and changes nothing. A copy
outside a buffer would have no outcome. -/
structure Inserted (σ : Pool ι) (x : ι) (pos : Nat) (d : List Byte)
    (r : Option (Pool ι × Outcome)) : Prop where
  inside : pos ≤ σ.size x → ∃ σ', r = some (σ', .done) ∧
    σ'.content x = (σ.content x).take pos ++ d ++ (σ.content x).drop pos ∧
    σ'.size x = σ.size x + d.length
  outside : σ.size x < pos → r = some (σ, .outOfRange)

/-- The tail, the tail moved to the old end, and what is behind that in the buffer once there
is room for `k` bytes. -/
def tailTwice (σ : Pool ι) (x : ι) (pos k : Nat) : List Byte :=
  (σ.content x).drop pos ++ (σ.content x).drop pos ++
    (roomBuffer σ x k).drop (σ.size x + (σ.size x - pos))

/-- The insertions of `k` bytes that leave the tail behind them. -/
structure TailKept (σ : Pool ι) (x : ι) (pos k : Nat) : Prop where
  /-- the tail fits behind the old end -/
  room : pos < σ.size x →
    σ.size x + (σ.size x - pos) ≤ grown (σ.capacity x) (σ.size x) k
  /-- `k` bytes further there is the tail again -/
  again : ((tailTwice σ x pos k).drop k).take (σ.size x - pos) = (σ.content x).drop pos

/-! ## The two copies -/

/-- A write that does not fit has no outcome. -/
theorem writeAt_outside {h : Heap (List Byte)} {p : Ptr} {b : List Byte} {off : Nat}
    {src : List Byte} (hcell : h.cell p = some b) (hne : src ≠ [])
    (hout : b.length < off + src.length) : writeAt h p off src = none := by
  rw [writeAt, if_neg hne]
  simp only [Heap.load, hcell, Option.bind_eq_bind, Option.bind_some, Buffer.blit]
  rw [if_neg (by omega)]
  rfl

omit [DecidableEq ι] in
/-- Making room keeps the content at the front of the buffer. -/
theorem roomBuffer_take (hσ : Sized σ x) (k : Nat) :
    (roomBuffer σ x k).take (σ.size x) = σ.content x := by
  rw [roomBuffer]
  split
  · rfl
  · rw [Pool.filled, ← hσ.length_content, List.take_left]

/-- The front of a buffer behind the two copies, where `old` was the front, `tail` its end
and `rest` what was behind the place the tail goes to. -/
theorem copies_front {old rest d : List Byte} (hpos : pos ≤ old.length) :
    ((old ++ old.drop pos ++ rest).take pos ++ d ++
        (old ++ old.drop pos ++ rest).drop (pos + d.length)).take (old.length + d.length) =
      old.take pos ++ d ++
        ((old.drop pos ++ old.drop pos ++ rest).drop d.length).take (old.length - pos) := by
  have hsplit : old ++ old.drop pos ++ rest =
      old.take pos ++ (old.drop pos ++ old.drop pos ++ rest) := by
    rw [← List.append_assoc, ← List.append_assoc, List.take_append_drop]
  have hlength : (old.take pos).length = pos := List.length_take_of_le hpos
  have hfront : (old.take pos ++ d).length = pos + d.length := by
    rw [List.length_append, hlength]
  rw [hsplit, List.take_left' hlength, ← List.drop_drop, List.drop_left' hlength,
    List.take_append, hfront, List.take_of_length_le (by omega)]
  congr 2
  omega

/-- The bytes to insert are still where they were when room has been made and the tail has
been moved. -/
theorem Elsewhere.read (hsrc : Elsewhere σ x src d) (hroomy : Roomy x k σ σ')
    {h : Heap (List Byte)}
    (hother : ∀ p, p ≠ σ'.data.holder x → h.cell p = σ'.data.heap.cell p) :
    src.read h d.length = some d := by
  obtain ⟨hread, hplace⟩ := hsrc
  cases src with
  | bytes b => exact hread
  | buffer p off =>
      by_cases hnil : d = []
      · simp [hnil, Source.read, readAt]
      · obtain ⟨hne, y, hy⟩ := hplace.resolve_left hnil
        subst hy
        have hyx : y ≠ x := by
          intro heq
          exact hne (congrArg σ.data.holder heq)
        have hd : d.length ≠ 0 := fun hzero => hnil (List.eq_nil_of_length_eq_zero hzero)
        simp only [Source.read, readAt, if_neg hd, Option.bind_eq_bind,
          Option.bind_eq_some_iff] at hread ⊢
        obtain ⟨b, hb, hslice⟩ := hread
        refine ⟨b, ?_, hslice⟩
        have hkept := hroomy.frame.cell y b hyx hb
        have happart : σ.data.holder y ≠ σ'.data.holder x := by
          rw [← hroomy.frame.holder y hyx]
          exact (Shared.unique_iff.mp hroomy.own).2 y hyx
        rw [Heap.load, hother _ happart, hkept]

/-- What an insertion inside the array leaves, when the tail fits behind the old end. -/
theorem insertElement_content (hσ : ∀ y, Sized σ y) (hpos : pos ≤ σ.size x)
    (hsrc : Elsewhere σ x src d)
    (hroom : pos < σ.size x →
      σ.size x + (σ.size x - pos) ≤ grown (σ.capacity x) (σ.size x) d.length) :
    ∃ σ', σ.insertElement x pos src d.length = some (σ', .done) ∧
      σ'.size x = σ.size x + d.length ∧
      σ'.content x = (σ.content x).take pos ++ d ++
        ((tailTwice σ x pos d.length).drop d.length).take (σ.size x - pos) := by
  obtain ⟨σ₁, hmake, hroomy⟩ := makeRoom_roomy hσ x d.length
  have hle := le_grown (hσ x).fits d.length
  have hcontent := (hσ x).length_content
  have hfront := roomBuffer_take (hσ x) d.length
  have hlength := hroomy.length
  have htail : ((σ.content x).drop pos).length = σ.size x - pos := by
    rw [List.length_drop, hcontent]
  -- the first copy: the tail behind the old end
  have hread : readAt σ₁.data.heap (σ₁.data.holder x) pos (σ.size x - pos) =
      some ((σ.content x).drop pos) := by
    rw [readAt_eq hroomy.buffer (by omega), ← hfront, List.drop_take]
  have hfits : σ.size x + ((σ.content x).drop pos).length ≤ (roomBuffer σ x d.length).length := by
    rw [htail, hlength]
    rcases Nat.lt_or_ge pos (σ.size x) with hlt | hge
    · exact hroom hlt
    · omega
  obtain ⟨h₁, hwrite₁, hh₁⟩ := writeAt_eq (σ.size x) ((σ.content x).drop pos) hroomy.buffer hfits
  rw [hfront, htail] at hh₁
  have hcell₁ : h₁.cell (σ₁.data.holder x) = some (σ.content x ++ (σ.content x).drop pos ++
      (roomBuffer σ x d.length).drop (σ.size x + (σ.size x - pos))) := by
    rw [hh₁, update_self]
  -- the second copy: the new bytes over `pos`
  have hbytes : src.read h₁ d.length = some d := by
    apply hsrc.read hroomy
    intro p hp
    rw [hh₁, update_of_ne hp]
  obtain ⟨h₂, hwrite₂, hh₂⟩ := writeAt_eq pos d hcell₁ (by
    simp only [List.length_append, List.length_drop, hcontent]
    omega)
  refine ⟨{ σ₁ with
      data := { σ₁.data with heap := h₂ }
      size := update σ₁.size x (σ.size x + d.length) }, ?_, update_self .., ?_⟩
  · simp only [Pool.insertElement, if_neg (not_not_intro hpos), hmake, Option.bind_eq_bind,
      Option.bind_some, hroomy.size, hread, hwrite₁, hbytes, hwrite₂, Option.pure_def]
  · have hsize : update σ₁.size x (σ.size x + d.length) x = σ.size x + d.length := update_self ..
    rw [Pool.content]
    show ((h₂.cell (σ₁.data.holder x)).getD []).take (update σ₁.size x _ x) = _
    rw [hsize, hh₂, update_self, Option.getD_some, ← hcontent,
      copies_front (hpos.trans_eq hcontent.symm), hcontent]
    rfl

/-- A tail that does not fit behind the old end is moved past the end of the buffer. -/
theorem insertElement_outside (hσ : ∀ y, Sized σ y) (hpos : pos < σ.size x)
    (hroom : grown (σ.capacity x) (σ.size x) k < σ.size x + (σ.size x - pos)) :
    σ.insertElement x pos src k = none := by
  obtain ⟨σ₁, hmake, hroomy⟩ := makeRoom_roomy hσ x k
  have hle := le_grown (hσ x).fits k
  have hlength := hroomy.length
  have hread : readAt σ₁.data.heap (σ₁.data.holder x) pos (σ.size x - pos) =
      some (((roomBuffer σ x k).drop pos).take (σ.size x - pos)) :=
    readAt_eq hroomy.buffer (by omega)
  have htail : (((roomBuffer σ x k).drop pos).take (σ.size x - pos)).length = σ.size x - pos := by
    rw [List.length_take, List.length_drop]
    omega
  have hwrite : writeAt σ₁.data.heap (σ₁.data.holder x) (σ.size x)
      (((roomBuffer σ x k).drop pos).take (σ.size x - pos)) = none :=
    writeAt_outside hroomy.buffer (List.ne_nil_of_length_pos (by omega)) (by omega)
  simp only [Pool.insertElement, if_neg (not_not_intro (Nat.le_of_lt hpos)), hmake,
    Option.bind_eq_bind, Option.bind_some, hroomy.size, hread, hwrite, Option.bind_none]

/-- An insertion is right exactly if its position is behind the end or its tail is kept. -/
theorem inserted_iff (hσ : ∀ y, Sized σ y) (hsrc : Elsewhere σ x src d) :
    Inserted σ x pos d (σ.insertElement x pos src d.length) ↔
      (pos ≤ σ.size x → TailKept σ x pos d.length) := by
  by_cases hpos : pos ≤ σ.size x
  · by_cases hroom : pos < σ.size x →
        σ.size x + (σ.size x - pos) ≤ grown (σ.capacity x) (σ.size x) d.length
    · obtain ⟨σ', hexec, hsize, hcontent⟩ := insertElement_content hσ hpos hsrc hroom
      rw [hexec]
      constructor
      · intro h _
        obtain ⟨τ, heq, hτ, _⟩ := h.inside hpos
        cases heq
        rw [hcontent] at hτ
        exact ⟨hroom, List.append_cancel_left hτ⟩
      · intro h
        refine ⟨fun _ => ⟨σ', rfl, ?_, hsize⟩, fun hlt => absurd hpos (Nat.not_le.mpr hlt)⟩
        rw [hcontent, (h hpos).again]
    · push Not at hroom
      obtain ⟨hlt, hout⟩ := hroom
      rw [insertElement_outside hσ hlt hout]
      constructor
      · intro h
        obtain ⟨τ, heq, _⟩ := h.inside hpos
        cases heq
      · intro h
        have hfits := (h hpos).room hlt
        omega
  · constructor
    · intro _ hle
      exact absurd hle hpos
    · intro _
      exact ⟨fun hle => absurd hle hpos, fun _ => if_pos hpos⟩

/-! ## Which tails are kept -/

omit [DecidableEq ι] in
/-- An insertion at the end has no tail. -/
theorem TailKept.at_end (hσ : Sized σ x) (k : Nat) : TailKept σ x (σ.size x) k where
  room h := absurd h (Nat.lt_irrefl _)
  again := by
    rw [Nat.sub_self, List.take_zero, List.drop_eq_nil_of_le hσ.length_content.le]

omit [DecidableEq ι] in
/-- As many bytes as the tail has, or none: it is where it should be. -/
theorem TailKept.of_length (hσ : Sized σ x)
    (hroom : σ.size x + (σ.size x - pos) ≤ grown (σ.capacity x) (σ.size x) k)
    (hk : k = 0 ∨ k = σ.size x - pos) : TailKept σ x pos k where
  room _ := hroom
  again := by
    have htail : ((σ.content x).drop pos).length = σ.size x - pos := by
      rw [List.length_drop, hσ.length_content]
    unfold tailTwice
    rcases hk with hzero | hlength
    · rw [hzero, List.drop_zero, List.append_assoc, List.take_left' htail]
    · rw [hlength, List.append_assoc, List.drop_left' htail, List.take_left' htail]

omit [DecidableEq ι] in
/-- Fewer bytes than the tail has: the tail must be the same when its first bytes are moved
to its end. -/
theorem TailKept.again_iff (hσ : Sized σ x) (hk : k ≤ σ.size x - pos) :
    ((tailTwice σ x pos k).drop k).take (σ.size x - pos) = (σ.content x).drop pos ↔
      (σ.content x).drop (pos + k) ++ ((σ.content x).drop pos).take k =
        (σ.content x).drop pos := by
  have htail : ((σ.content x).drop pos).length = σ.size x - pos := by
    rw [List.length_drop, hσ.length_content]
  have hdrop : ((σ.content x).drop (pos + k)).length = σ.size x - pos - k := by
    rw [List.length_drop, hσ.length_content]
    omega
  unfold tailTwice
  rw [List.append_assoc, List.drop_append_of_le_length (by omega), List.drop_drop,
    List.take_append, List.take_of_length_le (by omega), hdrop,
    show σ.size x - pos - (σ.size x - pos - k) = k by omega,
    List.take_append_of_le_length (by omega)]

/-- **Insertion.** In every state that runs of the array's operations reach, `insert` puts the
bytes between what was before and what was behind `pos`, copying inside the buffers only, or
throws and changes nothing, exactly if `pos` is behind the end or the tail is kept. And so
does `prepend`, at 0. -/
theorem inserts_iff (hσ : (edits ι).Reachable σ) (pos : Nat) (hsrc : Elsewhere σ x src d) :
    (Inserted σ x pos d (σ.insertBytes x pos src d.length) ↔
      (pos ≤ σ.size x → TailKept σ x pos d.length)) ∧
    (Inserted σ x 0 d (σ.prependBytes x src d.length) ↔ TailKept σ x 0 d.length) := by
  have hsized := edits_sized σ hσ
  refine ⟨inserted_iff hsized hsrc, ?_⟩
  rw [Pool.prependBytes, inserted_iff hsized hsrc]
  constructor
  · intro h
    exact h (Nat.zero_le _)
  · intro h _
    exact h

/-- `CMByteArray a(10); a.append("AB", 2);` -/
def appendedAB : Option (Pool (Fin 1)) :=
  (Edit.exec .empty (.call (.constructCapacity 0 10))).bind fun r =>
    (Edit.exec r.1 (.call (.appendBytes 0 [65, 66]))).map Prod.fst

theorem appendedAB_isSome : appendedAB.isSome := by decide +kernel

def arrayAB : Pool (Fin 1) := appendedAB.get appendedAB_isSome

theorem arrayAB_reachable : (edits (Fin 1)).Reachable arrayAB := by
  obtain ⟨r, hr, h⟩ := Option.bind_eq_some_iff.mp (Option.some_get appendedAB_isSome).symm
  obtain ⟨r', hr', h⟩ := Option.map_eq_some_iff.mp h
  have hstart : (edits (Fin 1)).Reachable (.empty : Pool (Fin 1)) := .init rfl
  have hr'' : (edits (Fin 1)).Reachable r'.1 := (hstart.step ⟨r.2, hr⟩).step ⟨r'.2, hr'⟩
  rw [h] at hr''
  exact hr''

/-- The theorem at this array: two bytes can be put in front of the two. -/
theorem inserts_iff_two : Inserted arrayAB 0 0 [88, 89]
    (arrayAB.prependBytes 0 (.bytes [88, 89]) [(88 : Byte), 89].length) :=
  (inserts_iff arrayAB_reachable 0 ⟨rfl, trivial⟩).2.mpr
    (.of_length (edits_sized _ arrayAB_reachable 0) (by decide +kernel) (by decide +kernel))

/-- `a.prepend("X", 1);` makes it `"XBA"`. -/
theorem prepend_breaks : (edits (Fin 1)).Reachable arrayAB ∧
    Elsewhere arrayAB 0 (.bytes [88]) [88] ∧
    ((arrayAB.prependBytes 0 (.bytes [88]) 1).map fun r => r.1.content 0) = some [88, 66, 65] ∧
    ¬ Inserted arrayAB 0 0 [88] (arrayAB.prependBytes 0 (.bytes [88]) 1) := by
  have hcontent : ((arrayAB.prependBytes 0 (.bytes [88]) 1).map fun r => r.1.content 0) =
      some [88, 66, 65] := by decide +kernel
  refine ⟨arrayAB_reachable, ⟨rfl, trivial⟩, hcontent, ?_⟩
  intro h
  obtain ⟨σ', heq, hinserted, _⟩ := h.inside (Nat.zero_le _)
  rw [heq, Option.map_some, hinserted] at hcontent
  revert hcontent
  decide +kernel

end LearnSpace.ByteArrays
