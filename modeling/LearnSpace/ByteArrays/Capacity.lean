import LearnSpace.ByteArrays.Copies
import LearnSpace.KvStore.ByteArrayValue

/-!
# Capacities and buffers

`Sized` says that the size of a variable is within its capacity and that the
capacity is the length of its buffer. What a method makes of its variable is
`Rebuilt`: a buffer of its own of the new capacity. The lemmas say when all
copies do the same and keep `Sized`, and what becomes of the capacity in the
copy in `base` when they do not.
-/

namespace LearnSpace.ByteArrays

open Keel Function KvStore
open KvStore.Pool (Frame)

/-! ## Reads and writes inside a buffer -/

section

variable {h h' : Heap (List Byte)} {p : Ptr} {b : List Byte}

/-- A read inside a live buffer gives as many bytes as were asked for. -/
theorem readAt_length (off len : Nat) (hcell : h.cell p = some b)
    (hfits : off + len ≤ b.length) :
    ∃ d, readAt h p off len = some d ∧ d.length = len := by
  refine ⟨_, readAt_eq hcell hfits, ?_⟩
  rw [List.length_take, List.length_drop]
  omega

/-- A write inside a live buffer keeps its length. -/
theorem writeAt_inside (off : Nat) (src : List Byte) (hcell : h.cell p = some b)
    (hfits : off + src.length ≤ b.length) :
    ∃ h' b', writeAt h p off src = some h' ∧ b'.length = b.length ∧
      h'.cell = update h.cell p (some b') := by
  obtain ⟨h', hwrite, hh⟩ := writeAt_eq off src hcell hfits
  refine ⟨h', _, hwrite, ?_, hh⟩
  simp only [List.length_append, List.length_take, List.length_drop]
  omega

/-- A write that is defined stays inside the buffer, and keeps its length. -/
theorem writeAt_some {off : Nat} {src : List Byte} (hcell : h.cell p = some b)
    (hwrite : writeAt h p off src = some h') :
    (src ≠ [] → off + src.length ≤ b.length) ∧
      ∃ b', h'.cell p = some b' ∧ b'.length = b.length := by
  rw [writeAt] at hwrite
  split at hwrite
  · rename_i hnil
    cases hwrite
    exact ⟨fun hne => absurd hnil hne, b, hcell, rfl⟩
  · simp only [Heap.load, hcell, Option.bind_eq_bind, Option.bind_some,
      Option.bind_eq_some_iff] at hwrite
    obtain ⟨b', hblit, hstore⟩ := hwrite
    obtain ⟨hfits, hlength⟩ := Buffer.length_blit hblit
    obtain ⟨h'', hstore', hcell', -⟩ := Heap.store_eq hcell b'
    rw [hstore'] at hstore
    cases hstore
    exact ⟨fun _ => hfits, b', by rw [hcell', update_self], hlength⟩

end

variable {ι : Type} {σ σ' σ'' : Pool ι} {x y : ι} {m n : Nat}

/-- The size is within the capacity, which is the length of the buffer. -/
structure Sized (σ : Pool ι) (x : ι) : Prop where
  fits : σ.size x ≤ σ.capacity x
  buffer : (σ.data.holder x = null ∧ σ.capacity x = 0) ∨
    ∃ b, σ.data.heap.cell (σ.data.holder x) = some b ∧ b.length = σ.capacity x

namespace Sized

theorem empty [Fintype ι] [DecidableEq ι] (x : ι) : Sized (Pool.empty : Pool ι) x :=
  ⟨Nat.le_refl _, .inl ⟨rfl, rfl⟩⟩

theorem live (h : Sized σ x) :
    σ.data.holder x = null ∨ ∃ b, σ.data.heap.cell (σ.data.holder x) = some b := by
  rcases h.buffer with ⟨hnull, -⟩ | ⟨b, hb, -⟩
  · exact .inl hnull
  · exact .inr ⟨b, hb⟩

/-- A variable with a byte has a live buffer. -/
theorem cell_of_pos (h : Sized σ x) (hpos : 0 < σ.capacity x) :
    ∃ b, σ.data.heap.cell (σ.data.holder x) = some b ∧ b.length = σ.capacity x := by
  rcases h.buffer with ⟨-, hcapacity⟩ | hb
  · omega
  · exact hb

/-- Nobody else's step changes a capacity. -/
theorem frame (hf : Frame x σ σ') (hy : y ≠ x) (h : Sized σ y) : Sized σ' y where
  fits := by
    rw [hf.size y hy, hf.capacity y hy]
    exact h.fits
  buffer := by
    rw [hf.holder y hy, hf.capacity y hy]
    refine h.buffer.imp id ?_
    rintro ⟨b, hb, hlength⟩
    exact ⟨b, hf.cell y b hy hb, hlength⟩

end Sized

variable [Fintype ι] [DecidableEq ι]

/-- What a method makes of its variable `x`: the size `m`, the capacity `n` and a
buffer of its own of that length. -/
structure Rebuilt (x : ι) (m n : Nat) (σ σ' : Pool ι) : Prop where
  size : σ'.size x = m
  capacity : σ'.capacity x = n
  buffer : ∃ b, σ'.data.heap.cell (σ'.data.holder x) = some b ∧ b.length = n
  own : σ'.data.unique x = true
  frame : Frame x σ σ'

namespace Rebuilt

theorem sized (h : Rebuilt x m n σ σ') (hfits : m ≤ n)
    (hσ : ∀ y, Sized σ y) (y : ι) : Sized σ' y := by
  by_cases hy : y = x
  · subst hy
    refine ⟨?_, .inr ?_⟩
    · rw [h.size, h.capacity]
      exact hfits
    · rw [h.capacity]
      exact h.buffer
  · exact .frame h.frame hy (hσ y)

end Rebuilt

/-! ## The private methods, alike in all copies -/

namespace Copy

/-- `resetBuffer` after the fields of `x` were set: the size is not more than
there are bytes to copy, and the capacity is not 0. -/
theorem resetBuffer_rebuilt (hσ : ∀ y, Sized σ y) (hsize : m = 0 ∨ m = σ.size x)
    (hfits : m ≤ n) (hpos : 0 < n) :
    ∃ σ', (∀ k : Copy, k.resetBuffer
        { σ with
          size := update σ.size x m
          capacity := update σ.capacity x n } x = some (σ', .done)) ∧
      Rebuilt x m n σ σ' := by
  have hf := Frame.fields x σ m n
  let set : Pool ι :=
    { σ with size := update σ.size x m, capacity := update σ.capacity x n }
  have hread : ∃ bs, readAt σ.data.heap (σ.data.holder x) 0 m = some bs ∧
      bs.length = m := by
    rcases Nat.eq_zero_or_pos m with rfl | hm
    · exact ⟨[], by rw [readAt, if_pos rfl], rfl⟩
    · have hfull : m = σ.size x := by omega
      have hle := (hσ x).fits
      obtain ⟨b, hb, hlength⟩ := (hσ x).cell_of_pos (by omega)
      exact readAt_length 0 m hb (by omega)
  obtain ⟨bs, hread, hlength⟩ := hread
  have hreadx : readAt set.data.heap (set.data.holder x) 0 (set.size x) = some bs := by
    show readAt σ.data.heap (σ.data.holder x) 0 (update σ.size x m x) = some bs
    rw [update_self]
    exact hread
  have hfitsx : bs.length ≤ set.capacity x := by
    show bs.length ≤ update σ.capacity x n x
    rw [update_self, hlength]
    exact hfits
  have hlive : ∀ y, y ≠ x → set.data.holder y = null ∨
      ∃ b, set.data.heap.cell (set.data.holder y) = some b := fun y _ => (hσ y).live
  obtain ⟨σ', hreset, hsize', hcapacity', hcell, hown, hframe⟩ :=
    Pool.resetBuffer_eq hlive hreadx hfitsx
  refine ⟨σ', fun k => ?_, ⟨?_, ?_, ?_, hown, hf.trans hframe⟩⟩
  · have hne : ¬ (k ≠ .kvStore ∧ update σ.capacity x n x = 0) := by
      rw [update_self]
      omega
    rw [resetBuffer, if_neg hne, hreset]
    rfl
  · rw [hsize']
    exact update_self ..
  · rw [hcapacity']
    exact update_self ..
  · have hx : update σ.capacity x n x = n := update_self ..
    refine ⟨_, hcell, ?_⟩
    rw [Pool.length_filled hfitsx]
    exact hx

/-- `detach`, unless there is nothing to allocate. -/
theorem detach_rebuilt (hσ : ∀ y, Sized σ y)
    (hroom : σ.data.unique x = true ∨ 0 < σ.capacity x) :
    ∃ σ', (∀ k : Copy, k.detach σ x = some (σ', .done)) ∧
      Rebuilt x (σ.size x) (σ.capacity x) σ σ' := by
  by_cases hown : σ.data.unique x = true
  · have hne := (Shared.unique_iff.mp hown).1
    have hbuffer : ∃ b, σ.data.heap.cell (σ.data.holder x) = some b ∧
        b.length = σ.capacity x := by
      rcases (hσ x).buffer with ⟨hnull, -⟩ | hb
      · exact absurd hnull hne
      · exact hb
    exact ⟨σ, fun k => by rw [detach, if_pos hown], rfl, rfl, hbuffer, hown, .refl x σ⟩
  · obtain ⟨σ', hreset, h⟩ := resetBuffer_rebuilt hσ (.inr rfl) (hσ x).fits
      (hroom.resolve_left hown)
    simp only [update_eq_self] at hreset
    exact ⟨σ', fun k => by rw [detach, if_neg hown, hreset], h⟩

/-- Growth leaves a capacity, unless there was none and none was asked for. -/
theorem grown_pos {capacity size len : Nat} (h : 0 < capacity + len) :
    0 < grown capacity size len := by
  have hstep : capacity + len ≤ stepCapacity (capacity + len) := Double.le_timesThreeHalves _
  rw [grown]
  split <;> omega

/-- `makeRoom`, when a buffer that is not shared is large enough. -/
theorem makeRoom_rebuilt (hσ : ∀ y, Sized σ y) {len : Nat}
    (hroom : σ.data.unique x = true → σ.size x + len ≤ σ.capacity x)
    (hpos : σ.data.unique x = true ∨ 0 < σ.capacity x + len) :
    ∃ σ', (∀ k : Copy, k.makeRoom σ x len = some (σ', .done)) ∧
      Rebuilt x (σ.size x) (grown (σ.capacity x) (σ.size x) len) σ σ' ∧
      (σ.data.unique x = true → σ' = σ) := by
  by_cases hown : σ.data.unique x = true
  · have hnot : ¬ σ.size x + len > σ.capacity x := Nat.not_lt.mpr (hroom hown)
    obtain ⟨σ', hdetach, h⟩ := detach_rebuilt hσ (.inl hown)
    have hsame : σ' = σ := by
      have := hdetach .base
      rw [detach, if_pos hown] at this
      cases this
      rfl
    subst hsame
    refine ⟨σ', fun k => ?_, ?_, fun _ => rfl⟩
    · cases k with
      | kvStore => simp only [makeRoom, if_neg hnot, Result.andThen, hdetach]
      | tcpServer =>
          simp only [makeRoom, if_neg hnot, hown, not_true_eq_false, false_or,
            Nat.lt_irrefl, gt_iff_lt, if_false]
      | base => simp only [makeRoom, if_neg hnot, update_eq_self, hdetach]
    · rw [grown, if_neg hnot]
      exact h
  · have hle := le_grown (hσ x).fits len
    have hpos' : 0 < grown (σ.capacity x) (σ.size x) len := grown_pos (hpos.resolve_left hown)
    obtain ⟨σ', hreset, h⟩ := resetBuffer_rebuilt (x := x) hσ (.inr rfl)
      ((Nat.le_add_right _ _).trans hle) hpos'
    simp only [update_eq_self] at hreset
    refine ⟨σ', fun k => ?_, h, fun h => absurd h hown⟩
    cases k with
    | kvStore =>
        rw [grown] at hreset
        by_cases hgrow : σ.size x + len > σ.capacity x
        · simp only [makeRoom, if_pos hgrow, Result.andThen] at hreset ⊢
          rw [hreset]
          simp only [detach, h.own, if_true]
        · simp only [if_neg hgrow, update_eq_self] at hreset
          simp only [makeRoom, if_neg hgrow, Result.andThen, detach, hown, hreset]
          rfl
    | tcpServer =>
        simp only [makeRoom]
        rw [if_pos (.inl hown)]
        exact hreset _
    | base =>
        simp only [makeRoom, detach, hown]
        exact hreset _

/-- The bytes of an argument can be read when the tail has been moved, also when
the argument is the array itself or shares its old buffer. -/
theorem source_read (hσ : ∀ y, Sized σ y) (hr : Rebuilt x m n σ σ')
    (hkeep : σ.data.unique x = true → σ' = σ) (hfits : σ.size x ≤ n) (str : Arg ι)
    {h : Heap (List Byte)} {b : List Byte} (hlength : b.length = n)
    (hh : h.cell = update σ'.data.heap.cell (σ'.data.holder x) (some b)) :
    ∃ d, (str.source σ).read h (str.len σ) = some d ∧ d.length = str.len σ := by
  cases str with
  | ptr byte =>
      refine ⟨byte, ?_, rfl⟩
      show Buffer.slice byte 0 byte.length = _
      rw [Buffer.slice_eq (by omega), List.drop_zero, List.take_length]
  | cstr str =>
      have hle : strlen str ≤ str.length := (List.takeWhile_prefix _).length_le
      refine ⟨_, Buffer.slice_eq (by rw [Nat.zero_add]; exact hle), ?_⟩
      rw [List.drop_zero, List.length_take]
      exact Nat.min_eq_left hle
  | array other =>
      show ∃ d, readAt h (σ.data.holder other) 0 (σ.size other) = some d ∧ _
      rcases Nat.eq_zero_or_pos (σ.size other) with hzero | hpos
      · exact ⟨[], by rw [readAt, if_pos hzero], hzero.symm⟩
      have hle := (hσ other).fits
      obtain ⟨c, hc, hclength⟩ := (hσ other).cell_of_pos (by omega)
      have hne : σ.data.holder other ≠ null := Heap.ne_null _ hc
      -- a buffer that some other variable has is not written to
      have hother : ∀ z, z ≠ x → σ.data.holder z = σ.data.holder other →
          h.cell (σ.data.holder other) = some c := by
        intro z hz hsame
        have hnot : σ.data.holder other ≠ σ'.data.holder x := by
          rw [← hsame, ← hr.frame.holder z hz]
          exact (Shared.unique_iff.mp hr.own).2 z hz
        have hkept := hr.frame.cell z c hz (by rw [hsame, hc])
        rw [hh, update_of_ne hnot, ← hsame]
        exact hkept
      by_cases hx : other = x
      · by_cases hown : σ.data.unique x = true
        · obtain rfl := hkeep hown
          subst hx
          exact readAt_length 0 _ (b := b) (by rw [hh, update_self]) (by omega)
        · have hshared : ¬ ∀ z, z ≠ x → σ.data.holder z ≠ σ.data.holder x := by
            intro hall
            exact hown (Shared.unique_iff.mpr ⟨hx ▸ hne, hall⟩)
          push Not at hshared
          obtain ⟨z, hz, hsame⟩ := hshared
          exact readAt_length 0 _ (hother z hz (hx ▸ hsame)) (by omega)
      · exact readAt_length 0 _ (hother other hx rfl) (by omega)

/-- The copies of `insertElement`, with the tail inside the buffer. -/
theorem moveIn_rebuilt (k : Copy) {pos len : Nat} {src : Source} (hr : Rebuilt x m n σ σ')
    (hpos : pos ≤ m) (hroom : m + len ≤ n) (htail : k.tailOffset m len + (m - pos) ≤ n)
    (hsrc : ∀ (h : Heap (List Byte)) b, b.length = n →
      h.cell = update σ'.data.heap.cell (σ'.data.holder x) (some b) →
      ∃ d, src.read h len = some d ∧ d.length = len) :
    ∃ σ'', k.moveIn σ' x pos src len = some σ'' ∧ Rebuilt x (m + len) n σ σ'' := by
  obtain ⟨b, hb, hlength⟩ := hr.buffer
  obtain ⟨tail, hread, htlength⟩ := readAt_length pos (m - pos) hb (by omega)
  obtain ⟨h₁, b₁, hwrite₁, hlength₁, hh₁⟩ := writeAt_inside (k.tailOffset m len) tail hb
    (by omega)
  obtain ⟨d, hd, hdlength⟩ := hsrc h₁ b₁ (by omega) hh₁
  have hb₁ : h₁.cell (σ'.data.holder x) = some b₁ := by rw [hh₁, update_self]
  obtain ⟨h₂, b₂, hwrite₂, hlength₂, hh₂⟩ := writeAt_inside pos d hb₁ (by omega)
  have hcell : h₂.cell = update σ'.data.heap.cell (σ'.data.holder x) (some b₂) := by
    rw [hh₂, hh₁, update_idem]
  refine ⟨{ σ' with
      data := { σ'.data with heap := h₂ }
      size := update σ'.size x (m + len) }, ?_, ?_⟩
  · simp only [moveIn, hr.size, hread, hwrite₁, hd, hwrite₂, Option.bind_eq_bind,
      Option.bind_some]
    rfl
  · refine ⟨update_self .., hr.capacity, ⟨b₂, ?_, by omega⟩, hr.own,
      hr.frame.trans (.write _ hr.own hcell)⟩
    show h₂.cell (σ'.data.holder x) = _
    rw [hcell, update_self]

/-- The removal leaves the buffer as long as it was. -/
theorem moveOut_rebuilt {pos : Nat} (len : Nat) (hr : Rebuilt x m n σ σ') (hfits : m ≤ n)
    (hpos : pos ≤ m) :
    ∃ σ'' m', moveOut σ' x pos len = some σ'' ∧ m' ≤ n ∧ Rebuilt x m' n σ σ'' := by
  obtain ⟨b, hb, hlength⟩ := hr.buffer
  obtain ⟨k, hk⟩ : ∃ k, (if m - pos < len then m - pos else len) = k := ⟨_, rfl⟩
  have hle : pos + k ≤ m := by
    rw [← hk]
    split <;> omega
  obtain ⟨rest, hread, hrest⟩ := readAt_length (pos + k) (m - pos - k) hb (by omega)
  obtain ⟨h₁, b₁, hwrite₁, hlength₁, hh₁⟩ := writeAt_inside pos rest hb (by omega)
  have hb₁ : h₁.cell (σ'.data.holder x) = some b₁ := by rw [hh₁, update_self]
  obtain ⟨h₂, b₂, hwrite₂, hlength₂, hh₂⟩ := writeAt_inside (m - k)
    (List.replicate (n - (m - k)) 0) hb₁ (by rw [List.length_replicate]; omega)
  have hcell : h₂.cell = update σ'.data.heap.cell (σ'.data.holder x) (some b₂) := by
    rw [hh₂, hh₁, update_idem]
  refine ⟨{ σ' with
      data := { σ'.data with heap := h₂ }
      size := update σ'.size x (m - k) }, m - k, ?_, by omega, ?_⟩
  · simp only [moveOut, hr.size, hr.capacity, hk, hread, hwrite₁, hwrite₂,
      Option.bind_eq_bind, Option.bind_some]
    rfl
  · refine ⟨update_self .., hr.capacity, ⟨b₂, ?_, by omega⟩, hr.own,
      hr.frame.trans (.write _ hr.own hcell)⟩
    show h₂.cell (σ'.data.holder x) = _
    rw [hcell, update_self]

end Copy

/-! ## Copies and moves -/

namespace Sized

/-- The copy shares the buffer of the original. -/
theorem copyFrom (hσ : ∀ y, Sized σ y) (x other y : ι) : Sized (σ.copyFrom x other) y := by
  by_cases hy : y = x
  · subst hy
    have hother := hσ other
    have hholder : (σ.copyFrom y other).data.holder y = σ.data.holder other := by
      show (σ.data.assign y (σ.data.holder other)).holder y = _
      rw [Shared.assign_holder, update_self]
    have hsize : (σ.copyFrom y other).size y = σ.size other := update_self ..
    have hcapacity : (σ.copyFrom y other).capacity y = σ.capacity other := update_self ..
    refine ⟨?_, ?_⟩
    · rw [hsize, hcapacity]
      exact hother.fits
    · rw [hholder, hcapacity]
      refine hother.buffer.imp id ?_
      rintro ⟨b, hb, hlength⟩
      refine ⟨b, ?_, hlength⟩
      show (σ.data.assign y (σ.data.holder other)).heap.cell _ = _
      rw [Shared.assign_cell_of_held (y := y) hholder (Heap.ne_null _ hb), hb]
  · exact .frame (.assign x σ _ _ _) hy (hσ y)

theorem release (hσ : ∀ y, Sized σ y) (x y : ι) : Sized (σ.release x) y := by
  by_cases hy : y = x
  · subst hy
    have hholder : (σ.release y).data.holder y = null := by
      show (σ.data.assign y null).holder y = _
      rw [Shared.assign_holder, update_self]
    have hsize : (σ.release y).size y = 0 := update_self ..
    have hcapacity : (σ.release y).capacity y = 0 := update_self ..
    refine ⟨?_, .inl ⟨hholder, hcapacity⟩⟩
    rw [hsize, hcapacity]
  · exact .frame (.assign x σ _ _ _) hy (hσ y)

theorem moveFrom (hσ : ∀ y, Sized σ y) (x other y : ι) : Sized (σ.moveFrom x other) y :=
  release (copyFrom hσ x other) other y

end Sized
end LearnSpace.ByteArrays
