import LearnSpace.ByteArrays.Edits

/-!
# Copies between ranges that do not overlap

A `memcpy` whose ranges overlap has no defined behaviour. Here `insertElement` is followed with
copies that ask for what `memcpy` does: both ranges are inside their buffers, also when they are
empty, and they are disjoint. A call that has an outcome then is the call with copies that may
overlap (`insertElementApart_eq`).

`Holds` is a variable whose buffer is its own and begins with given bytes. Insertion at its end
keeps the ranges apart; in front of it, in the copy in `TCPServer`, exactly if there are not
more bytes than are inserted.
-/

namespace LearnSpace.ByteArrays

open Keel Function KvStore
open KvStore.Pool (Frame)

/-! ## `memcpy` -/

/-- The `len` bytes from `off` on in the buffer `dst` have one in common with the source. -/
def Overlaps (dst : Ptr) (off len : Nat) : Source → Prop
  | .bytes _ => False
  | .buffer p o => p = dst ∧ 0 < len ∧ off < o + len ∧ o < off + len

instance (dst : Ptr) (off len : Nat) (src : Source) : Decidable (Overlaps dst off len src) :=
  match src with
  | .bytes _ => inferInstanceAs (Decidable False)
  | .buffer p o =>
    inferInstanceAs (Decidable (p = dst ∧ 0 < len ∧ off < o + len ∧ o < off + len))

/-- The source range, which is inside its buffer also when it is empty. -/
def fetch (h : Heap (List Byte)) : Source → Nat → Option (List Byte)
  | .bytes b, len => Buffer.slice b 0 len
  | .buffer p off, len => (h.load p).bind fun b => Buffer.slice b off len

/-- `memcpy(dst + off, src, len)`. -/
def memcpy (h : Heap (List Byte)) (dst : Ptr) (off : Nat) (src : Source) (len : Nat) :
    Option (Heap (List Byte)) :=
  if Overlaps dst off len src then none
  else do
    let bytes ← fetch h src len
    let b ← h.load dst
    let b ← Buffer.blit b off bytes
    h.store dst b

section

variable {h h' : Heap (List Byte)} {dst : Ptr} {off len : Nat} {src : Source}
  {b bytes : List Byte}

theorem read_of_fetch (hfetch : fetch h src len = some bytes) : src.read h len = some bytes := by
  cases src with
  | bytes b => exact hfetch
  | buffer p o =>
      obtain ⟨b, hload, hslice⟩ := Option.bind_eq_some_iff.mp hfetch
      rw [Source.read, readAt]
      split
      · rename_i hzero
        have hlength := Buffer.length_slice hslice
        rw [List.eq_nil_of_length_eq_zero (hlength.trans hzero)]
      · simp only [hload, Option.bind_eq_bind, Option.bind_some, hslice]

/-- Writing nothing changes nothing. -/
theorem store_same (hcell : h.cell dst = some b) : h.store dst b = some h := by
  have hlive : (h.cell dst).isSome := by rw [hcell]; rfl
  rw [Heap.store, dif_pos hlive]
  have hsame : update h.cell dst (some b) = h.cell := by rw [← hcell, update_eq_self]
  cases h
  simp only [Heap.overwrite, Option.some.injEq, Heap.mk.injEq] at hsame ⊢
  exact ⟨hsame, trivial⟩

/-- A `memcpy` that is defined reads its range and writes it. -/
theorem writeAt_of_memcpy (hcopy : memcpy h dst off src len = some h') :
    ∃ bytes, src.read h len = some bytes ∧ writeAt h dst off bytes = some h' := by
  rw [memcpy] at hcopy
  split at hcopy
  · cases hcopy
  simp only [Option.bind_eq_bind, Option.bind_eq_some_iff] at hcopy
  obtain ⟨bytes, hfetch, b, hload, b', hblit, hstore⟩ := hcopy
  refine ⟨bytes, read_of_fetch hfetch, ?_⟩
  rw [writeAt]
  split
  · rename_i hnil
    rw [hnil, Buffer.blit] at hblit
    split at hblit
    · cases hblit
      rw [List.append_nil, List.length_nil, Nat.add_zero, List.take_append_drop,
        store_same hload] at hstore
      exact hstore
    · cases hblit
  · simp only [hload, Option.bind_eq_bind, Option.bind_some, hblit, hstore]

/-- Ranges that are inside their buffers and apart. -/
theorem memcpy_eq (off : Nat) (hapart : ¬ Overlaps dst off len src)
    (hfetch : fetch h src len = some bytes)
    (hcell : h.cell dst = some b) (hfits : off + bytes.length ≤ b.length) :
    ∃ h', memcpy h dst off src len = some h' ∧
      h'.cell = update h.cell dst (some (b.take off ++ bytes ++ b.drop (off + bytes.length))) := by
  obtain ⟨h', hstore, hh, -⟩ :=
    Heap.store_eq hcell (b.take off ++ bytes ++ b.drop (off + bytes.length))
  refine ⟨h', ?_, hh⟩
  rw [memcpy, if_neg hapart]
  simp only [hfetch, Heap.load, hcell, Option.bind_eq_bind, Option.bind_some,
    Buffer.blit_eq hfits, hstore]

theorem memcpy_overlap (hoverlap : Overlaps dst off len src) : memcpy h dst off src len = none :=
  if_pos hoverlap

end

/-! ## `insertElement` -/

variable {ι : Type} [Fintype ι] [DecidableEq ι] {σ σ' σ'' : Pool ι} {x : ι} {k : Copy}
  {pos len : Nat} {src : Source} {bs bytes d : List Byte}

namespace Copy

/-- The two copies of `insertElement` and the new size. -/
def moveInApart (k : Copy) (σ : Pool ι) (x : ι) (pos : Nat) (dataP : Source) (dataLen : Nat) :
    Option (Pool ι) := do
  let p := σ.data.holder x
  let heap ← memcpy σ.data.heap p (k.tailOffset (σ.size x) dataLen) (.buffer p pos)
    (σ.size x - pos)
  let heap ← memcpy heap p pos dataP dataLen
  return { σ with
    data := { σ.data with heap := heap }
    size := update σ.size x (σ.size x + dataLen) }

/-- `insertElement`. What `resetBuffer` copies goes to a new buffer, so there is no overlap. -/
def insertElementApart (k : Copy) (σ : Pool ι) (x : ι) (pos : Nat) (dataP : Source)
    (dataLen : Nat) : Result ι :=
  if ¬ pos ≤ σ.size x then some (σ, .outOfRange)
  else
    (k.makeRoom σ x dataLen).andThen fun σ =>
      (k.moveInApart σ x pos dataP dataLen).map (·, .done)

omit [Fintype ι] in
theorem moveInApart_eq (hmove : k.moveInApart σ x pos src len = some σ') :
    k.moveIn σ x pos src len = some σ' := by
  simp only [moveInApart, Option.bind_eq_bind, Option.bind_eq_some_iff] at hmove
  obtain ⟨h₁, hcopy₁, h₂, hcopy₂, heq⟩ := hmove
  obtain ⟨tail, hread₁, hwrite₁⟩ := writeAt_of_memcpy hcopy₁
  obtain ⟨bytes, hread₂, hwrite₂⟩ := writeAt_of_memcpy hcopy₂
  change readAt σ.data.heap (σ.data.holder x) pos (σ.size x - pos) = some tail at hread₁
  simp only [moveIn, hread₁, hwrite₁, hread₂, hwrite₂, Option.bind_eq_bind, Option.bind_some]
  exact heq

theorem insertElementApart_done (hpos : pos ≤ σ.size x)
    (hroom : k.makeRoom σ x len = some (σ', .done))
    (hmove : k.moveInApart σ' x pos src len = some σ'') :
    k.insertElementApart σ x pos src len = some (σ'', .done) := by
  rw [insertElementApart, if_neg (not_not_intro hpos), hroom]
  show (k.moveInApart σ' x pos src len).map _ = _
  rw [hmove, Option.map_some]

/-- With an outcome, the call is the one whose copies may overlap. -/
theorem insertElementApart_eq {r : Pool ι × Answer}
    (hinsert : k.insertElementApart σ x pos src len = some r) :
    k.insertElement σ x pos src len = some r := by
  rw [insertElementApart] at hinsert
  rw [insertElement]
  split at hinsert
  · rename_i hpos
    rw [if_pos hpos, hinsert]
  · rename_i hpos
    rw [if_neg hpos]
    cases hroom : k.makeRoom σ x len with
    | none =>
        rw [hroom] at hinsert
        cases hinsert
    | some room =>
        obtain ⟨σ₁, answer⟩ := room
        rw [hroom] at hinsert
        cases answer with
        | done =>
            obtain ⟨σ₂, hmove, heq⟩ := Option.map_eq_some_iff.mp hinsert
            simp only [Result.andThen, moveInApart_eq hmove, Option.map_some, heq]
        | byte _ => exact hinsert
        | outOfRange => exact hinsert
        | badArrayNewLength => exact hinsert

end Copy

/-! ## A variable with a buffer of its own -/

omit [Fintype ι] [DecidableEq ι] in
theorem OthersLive.frame (hf : Frame x σ σ') (h : OthersLive σ x) : OthersLive σ' x := by
  intro y hy
  rw [hf.holder y hy]
  exact (h y hy).imp id (fun ⟨b, hb⟩ => ⟨b, hf.cell y b hy hb⟩)

/-- The buffer of `x` is its own, as long as its capacity, and begins with `bs`. -/
structure Holds (σ : Pool ι) (x : ι) (bs : List Byte) : Prop where
  size : σ.size x = bs.length
  own : σ.data.unique x = true
  buffer : ∃ rest, σ.data.heap.cell (σ.data.holder x) = some (bs ++ rest) ∧
    bs.length + rest.length = σ.capacity x
  others : OthersLive σ x

namespace Holds

omit [DecidableEq ι] in
theorem content (h : Holds σ x bs) : σ.content x = bs := by
  obtain ⟨rest, hcell, -⟩ := h.buffer
  rw [Pool.content, hcell, h.size, Option.getD_some, List.take_left]

omit [DecidableEq ι] in
theorem fits (h : Holds σ x bs) : bs.length ≤ σ.capacity x := by
  obtain ⟨rest, -, hlength⟩ := h.buffer
  omega

omit [DecidableEq ι] in
theorem read (h : Holds σ x bs) :
    readAt σ.data.heap (σ.data.holder x) 0 (σ.size x) = some bs := by
  obtain ⟨rest, hcell, -⟩ := h.buffer
  have hsize := h.size
  rw [readAt_eq hcell (by rw [List.length_append]; omega), hsize, List.drop_zero,
    List.take_left]

omit [DecidableEq ι] in
/-- A buffer that `resetBuffer` has filled. -/
theorem of_filled (hsize : σ.size x = bs.length) (hown : σ.data.unique x = true)
    (hcell : σ.data.heap.cell (σ.data.holder x) = some (Pool.filled bs (σ.capacity x)))
    (hfits : bs.length ≤ σ.capacity x) (hothers : OthersLive σ x) : Holds σ x bs := by
  refine ⟨hsize, hown, ⟨_, hcell, ?_⟩, hothers⟩
  rw [List.length_replicate]
  omega

end Holds

/-- A new array. -/
theorem constructCapacity_holds (k : Copy) {capacity : Nat} (hcapacity : 0 < capacity)
    (hothers : OthersLive σ x) :
    ∃ σ', k.constructCapacity σ x capacity = some (σ', .done) ∧ Holds σ' x [] ∧
      σ'.capacity x = capacity ∧ Frame x σ σ' := by
  have hf := Frame.fields x σ 0 capacity
  have hzero : update σ.size x 0 x = 0 := update_self ..
  have hcap : update σ.capacity x capacity x = capacity := update_self ..
  obtain ⟨σ', hreset, hsize, hcapacity', hcell, hown, hframe⟩ := Pool.resetBuffer_eq
    (σ := { σ with size := update σ.size x 0, capacity := update σ.capacity x capacity })
    (x := x) (hothers.frame hf) (if_pos hzero) (Nat.zero_le _)
  dsimp only at hcell
  rw [hcap] at hcell
  have hcap' : σ'.capacity x = capacity := by
    rw [hcapacity']
    exact hcap
  have hsize' : σ'.size x = 0 := by
    rw [hsize]
    exact hzero
  rw [← hcap'] at hcell
  refine ⟨σ', ?_, .of_filled hsize' hown hcell (Nat.zero_le _) (hothers.frame (hf.trans hframe)),
    hcap', hf.trans hframe⟩
  have hne : ¬ (k ≠ .kvStore ∧ update σ.capacity x capacity x = 0) := by
    rintro ⟨-, hnull⟩
    omega
  rw [Copy.constructCapacity, Copy.resetBuffer, hreset, if_neg hne]
  rfl

/-- The copy in `TCPServer` makes room in the buffer, or in a new one that is large enough. -/
theorem Holds.makeRoom (h : Holds σ x bs) (len : Nat) :
    ∃ σ', Copy.tcpServer.makeRoom σ x len = some (σ', .done) ∧ Holds σ' x bs ∧
      σ'.capacity x = grown (σ.capacity x) bs.length len ∧ Frame x σ σ' := by
  obtain ⟨rest, hcell, hlength⟩ := h.buffer
  have hsize := h.size
  rw [grown]
  split
  · rename_i hgrow
    have hstep : σ.capacity x + len ≤ stepCapacity (σ.capacity x + len) :=
      Double.le_timesThreeHalves _
    let set : Pool ι :=
      { σ with capacity := update σ.capacity x (stepCapacity (σ.capacity x + len)) }
    have hcap : set.capacity x = stepCapacity (σ.capacity x + len) := update_self ..
    have hf : Frame x σ set := by
      simpa using Frame.fields x σ (σ.size x) (stepCapacity (σ.capacity x + len))
    have hread : readAt set.data.heap (set.data.holder x) 0 (set.size x) = some bs := h.read
    obtain ⟨σ', hreset, hsize', hcapacity', hcell', hown', hframe⟩ := Pool.resetBuffer_eq
      (h.others.frame hf) hread (by omega)
    have hcap' : σ'.capacity x = stepCapacity (σ.capacity x + len) := by
      rw [hcapacity']
      exact hcap
    rw [hcap, ← hcap'] at hcell'
    refine ⟨σ', ?_, .of_filled ?_ hown' hcell' (by omega) (h.others.frame (hf.trans hframe)),
      hcap', hf.trans hframe⟩
    · have hne : ¬ (Copy.tcpServer ≠ .kvStore ∧ set.capacity x = 0) := by
        rintro ⟨-, hnull⟩
        omega
      simp only [Copy.makeRoom, hsize, if_pos hgrow]
      rw [if_pos (.inr (by omega)), Copy.resetBuffer, if_neg hne, hreset]
      rfl
    · rw [hsize']
      exact hsize
  · rename_i hroom
    refine ⟨σ, ?_, h, rfl, .refl x σ⟩
    simp only [Copy.makeRoom, hsize, if_neg hroom]
    rw [if_neg (by simp [h.own])]

/-- Two copies into the buffer of `x` that are defined. -/
theorem Holds.moved (h : Holds σ x bs) (new : List Byte) {b b₁ : List Byte}
    {h₁ : Heap (List Byte)}
    (hmove : memcpy σ.data.heap (σ.data.holder x) len (.buffer (σ.data.holder x) pos)
      (σ.size x - pos) = some h₁)
    (hh₁ : h₁.cell = update σ.data.heap.cell (σ.data.holder x) (some b₁))
    (hsrc : fetch h₁ src len = some d) (hapart : ¬ Overlaps (σ.data.holder x) pos len src)
    (hfits : pos + d.length ≤ b₁.length)
    (hnew : b₁.take pos ++ d ++ b₁.drop (pos + d.length) = new ++ b)
    (hlength : new.length = bs.length + len) (hcapacity : b₁.length = σ.capacity x) :
    ∃ σ', Copy.tcpServer.moveInApart σ x pos src len = some σ' ∧ Holds σ' x new ∧
      σ'.capacity x = σ.capacity x ∧ Frame x σ σ' := by
  have hcell₁ : h₁.cell (σ.data.holder x) = some b₁ := by rw [hh₁, update_self]
  obtain ⟨h₂, hcopy, hh₂⟩ := memcpy_eq pos hapart hsrc hcell₁ hfits
  rw [hnew, hh₁, update_idem] at hh₂
  have hlen : (new ++ b).length = b₁.length := by
    rw [← hnew]
    simp only [List.length_append, List.length_take, List.length_drop]
    omega
  have hf := Frame.write (σ.size x + len) h.own hh₂
  refine ⟨{ σ with
      data := { σ.data with heap := h₂ }
      size := update σ.size x (σ.size x + len) }, ?_, ⟨?_, h.own, ⟨b, ?_, ?_⟩, ?_⟩, rfl, hf⟩
  · simp only [Copy.moveInApart, Copy.tailOffset, hmove, hcopy, Option.bind_eq_bind,
      Option.bind_some]
    rfl
  · show update σ.size x _ x = _
    rw [update_self, h.size, hlength]
  · show h₂.cell (σ.data.holder x) = _
    rw [hh₂, update_self]
  · rw [← hcapacity, ← hlen, List.length_append]
  · exact h.others.frame hf

/-- New bytes behind the old ones: there is nothing to move, and the ranges are apart. -/
theorem Holds.append (h : Holds σ x bs) (hd : Buffer.slice d 0 len = some bytes) :
    ∃ σ', Copy.tcpServer.insertElementApart σ x (σ.size x) (.bytes d) len = some (σ', .done) ∧
      Holds σ' x (bs ++ bytes) ∧ σ'.capacity x = grown (σ.capacity x) bs.length len ∧
      Frame x σ σ' := by
  obtain ⟨σ₁, hroom, h₁, hcap₁, hf₁⟩ := h.makeRoom len
  obtain ⟨rest, hcell, hlength⟩ := h₁.buffer
  have hlen := Buffer.length_slice hd
  have hsize : σ.size x = bs.length := h.size
  have hnone : σ₁.size x - σ.size x = 0 := by rw [h₁.size, hsize, Nat.sub_self]
  have hle : bs.length + len ≤ σ₁.capacity x := by
    rw [hcap₁]
    exact le_grown h.fits len
  have hbuffer : (bs ++ rest).length = σ₁.capacity x := by rw [List.length_append, hlength]
  -- no byte is moved
  have hfetch : fetch σ₁.data.heap (.buffer (σ₁.data.holder x) (σ.size x)) (σ₁.size x - σ.size x)
      = some [] := by
    rw [hnone]
    show (σ₁.data.heap.cell _).bind _ = _
    rw [hcell, Option.bind_some, Buffer.slice_eq (by omega), List.take_zero]
  obtain ⟨heap, hmove, hheap⟩ := memcpy_eq len (by rintro ⟨-, hpos, -⟩; omega) hfetch hcell
    (by rw [List.length_nil]; omega)
  rw [List.length_nil, Nat.add_zero, List.append_nil, List.take_append_drop] at hheap
  have hsrc : fetch heap (.bytes d) len = some bytes := hd
  have hnew : (bs ++ rest).take (σ.size x) ++ bytes ++ (bs ++ rest).drop (σ.size x + bytes.length) =
      bs ++ bytes ++ rest.drop len := by
    rw [hsize, hlen, List.take_left, List.drop_append, List.drop_eq_nil_of_le (by omega),
      List.nil_append, Nat.add_sub_cancel_left, List.append_assoc]
  obtain ⟨σ', hin, h', hcap', hf'⟩ := h₁.moved (bs ++ bytes) hmove hheap hsrc id (by omega) hnew
    (by rw [List.length_append, hlen]) hbuffer
  exact ⟨σ', Copy.insertElementApart_done (by simp) hroom hin, h', hcap'.trans hcap₁, hf₁.trans hf'⟩

/-- New bytes in front of the old ones, as many at least: the old ones are moved behind
themselves. -/
theorem Holds.prepend (h : Holds σ x bs) (hd : Buffer.slice d 0 len = some bytes)
    (hfew : bs.length ≤ len) :
    ∃ σ', Copy.tcpServer.insertElementApart σ x 0 (.bytes d) len = some (σ', .done) ∧
      Holds σ' x (bytes ++ bs) ∧ σ'.capacity x = grown (σ.capacity x) bs.length len ∧
      Frame x σ σ' := by
  obtain ⟨σ₁, hroom, h₁, hcap₁, hf₁⟩ := h.makeRoom len
  obtain ⟨rest, hcell, hlength⟩ := h₁.buffer
  have hlen := Buffer.length_slice hd
  have hsize : σ₁.size x - 0 = bs.length := h₁.size
  have hle : bs.length + len ≤ σ₁.capacity x := by
    rw [hcap₁]
    exact le_grown h.fits len
  have hbuffer : (bs ++ rest).length = σ₁.capacity x := by rw [List.length_append, hlength]
  have hfetch : fetch σ₁.data.heap (.buffer (σ₁.data.holder x) 0) (σ₁.size x - 0) = some bs := by
    rw [hsize]
    show (σ₁.data.heap.cell _).bind _ = _
    rw [hcell, Option.bind_some, Buffer.slice_eq (by omega), List.drop_zero, List.take_left]
  obtain ⟨heap, hmove, hheap⟩ := memcpy_eq len (by rintro ⟨-, -, hlt, -⟩; omega) hfetch
    hcell (by omega)
  have htake : ((bs ++ rest).take len).length = len := List.length_take_of_le (by omega)
  have hsrc : fetch heap (.bytes d) len = some bytes := hd
  generalize hb₁ : (bs ++ rest).take len ++ bs ++ (bs ++ rest).drop (len + bs.length) = b₁ at hheap
  have hlength₁ : b₁.length = σ₁.capacity x := by
    rw [← hb₁, ← hbuffer]
    simp only [List.length_append, List.length_take, List.length_drop]
    omega
  have hnew : b₁.take 0 ++ bytes ++ b₁.drop (0 + bytes.length) =
      bytes ++ bs ++ (bs ++ rest).drop (len + bs.length) := by
    rw [← hb₁, List.take_zero, List.nil_append, Nat.zero_add, hlen, List.append_assoc,
      List.drop_left' htake, List.append_assoc]
  obtain ⟨σ', hin, h', hcap', hf'⟩ := h₁.moved (bytes ++ bs) hmove hheap hsrc id (by omega) hnew
    (by rw [List.length_append, hlen, Nat.add_comm]) hlength₁
  exact ⟨σ', Copy.insertElementApart_done (by simp) hroom hin, h', hcap'.trans hcap₁, hf₁.trans hf'⟩

/-- Fewer new bytes than old ones: the old ones are moved over themselves. -/
theorem Holds.prepend_overlaps (h : Holds σ x bs) (hmany : len < bs.length) (src : Source) :
    Copy.tcpServer.insertElementApart σ x 0 src len = none := by
  obtain ⟨σ₁, hroom, h₁, -, -⟩ := h.makeRoom len
  have hsize := h₁.size
  have hoverlap : Overlaps (σ₁.data.holder x) len (σ₁.size x - 0)
      (.buffer (σ₁.data.holder x) 0) := ⟨rfl, by omega, by omega, by omega⟩
  rw [Copy.insertElementApart, if_neg (by simp), hroom]
  show (Copy.moveInApart _ σ₁ x _ _ _).map _ = _
  simp only [Copy.moveInApart, Copy.tailOffset, memcpy_overlap hoverlap, Option.bind_eq_bind,
    Option.bind_none, Option.map_none]

end LearnSpace.ByteArrays
