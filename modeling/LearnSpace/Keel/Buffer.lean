import Mathlib.Data.List.TakeDrop

/-!
# Byte-wise copies between buffers

A buffer is the list of its elements. `slice` reads a range and `blit` writes
one; both answer `none` outside the buffer. A `memcpy`, or a `memmove` when
the ranges overlap, reads its whole source range and then writes it.
-/

namespace Keel.Buffer

variable {α : Type*}

/-- The `len` elements from `off` on. -/
def slice (b : List α) (off len : Nat) : Option (List α) :=
  if off + len ≤ b.length then some ((b.drop off).take len) else none

/-- The buffer with `src` written at `off`. -/
def blit (b : List α) (off : Nat) (src : List α) : Option (List α) :=
  if off + src.length ≤ b.length then
    some (b.take off ++ src ++ b.drop (off + src.length))
  else none

variable {b b' r src : List α} {off len : Nat}

theorem slice_eq (h : off + len ≤ b.length) : slice b off len = some ((b.drop off).take len) :=
  if_pos h

theorem blit_eq (h : off + src.length ≤ b.length) :
    blit b off src = some (b.take off ++ src ++ b.drop (off + src.length)) :=
  if_pos h

theorem length_slice (h : slice b off len = some r) : r.length = len := by
  rw [slice] at h
  split at h
  · cases h
    rw [List.length_take, List.length_drop]
    omega
  · cases h

/-- A write stays inside the buffer, and does not change its length. -/
theorem length_blit (h : blit b off src = some b') :
    off + src.length ≤ b.length ∧ b'.length = b.length := by
  rw [blit] at h
  split at h
  · rename_i hfits
    cases h
    refine ⟨hfits, ?_⟩
    simp only [List.length_append, List.length_take, List.length_drop]
    omega
  · cases h

end Keel.Buffer
