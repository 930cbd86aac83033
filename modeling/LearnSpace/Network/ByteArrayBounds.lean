import LearnSpace.Network.ByteArrayCounts

/-!
# The lengths of buffers that may be gone

A buffer is never resized, and an address is handed out once. So the length that a variable has
noted for its buffer stays right whatever becomes of the buffer (`Based.keeps`): also where the
counters are wrong, and other variables free it. What `creatMemory` copies has to be in the old
buffer, so the new one is no longer (`creatMemory_based`).
-/

namespace LearnSpace.Network

open Keel Function
open KvStore (Byte Source writeAt)

variable {h h' h'' : Heap (List Byte)} {p : Ptr} {off len size : Nat} {src : Source}

/-- What is live of the buffers that were handed out has the length it had. -/
structure Keeps (h h' : Heap (List Byte)) : Prop where
  brk_le : h.brk ≤ h'.brk
  length : ∀ p d', p < h.brk → h'.cell p = some d' → ∃ d, h.cell p = some d ∧ d.length = d'.length

namespace Keeps

theorem refl (h : Heap (List Byte)) : Keeps h h where
  brk_le := Nat.le_refl _
  length _ d' _ hd' := ⟨d', hd', rfl⟩

theorem trans (hk : Keeps h h') (hk' : Keeps h' h'') : Keeps h h'' where
  brk_le := Nat.le_trans hk.brk_le hk'.brk_le
  length p d'' hp hd'' := by
    obtain ⟨d', hd', hlength'⟩ := hk'.length p d'' (Nat.lt_of_lt_of_le hp hk.brk_le) hd''
    obtain ⟨d, hd, hlength⟩ := hk.length p d' hp hd'
    exact ⟨d, hd, hlength.trans hlength'⟩

theorem alloc (h : Heap (List Byte)) (d : List Byte) : Keeps h (h.alloc d).2 where
  brk_le := Nat.le_succ _
  length p d' hp hd' := by
    have hnew : p ≠ (h.alloc d).1 := Nat.ne_of_lt hp
    rw [Heap.alloc_cell, update_of_ne hnew] at hd'
    exact ⟨d', hd', rfl⟩

theorem free (hfree : h.free p = some h') : Keeps h h' := by
  obtain ⟨-, -, hcell, hbrk⟩ := Heap.free_some hfree
  refine ⟨Nat.le_of_eq hbrk.symm, fun q d' _ hd' => ?_⟩
  rw [hcell] at hd'
  by_cases hq : q = p
  · rw [hq, update_self] at hd'
    cases hd'
  · rw [update_of_ne hq] at hd'
    exact ⟨d', hd', rfl⟩

theorem deleteBuffer (hdelete : deleteBuffer h p = some h') : Keeps h h' := by
  rw [Network.deleteBuffer] at hdelete
  split at hdelete
  · cases hdelete
    exact refl h
  · exact free hdelete

theorem writeAt {bytes : List Byte} (hwrite : writeAt h p off bytes = some h') : Keeps h h' := by
  rw [KvStore.writeAt] at hwrite
  split at hwrite
  · cases hwrite
    exact refl h
  · simp only [Option.bind_eq_bind, Option.bind_eq_some_iff] at hwrite
    obtain ⟨d, hd, d', hblit, hstore⟩ := hwrite
    obtain ⟨h'', hstore', hcell, hbrk⟩ := Heap.store_eq hd d'
    rw [hstore] at hstore'
    cases hstore'
    refine ⟨Nat.le_of_eq hbrk.symm, fun q e he hcell' => ?_⟩
    rw [hcell] at hcell'
    by_cases hq : q = p
    · rw [hq, update_self] at hcell'
      cases hcell'
      exact ⟨d, hq ▸ hd, (Buffer.length_blit hblit).2.symm⟩
    · rw [update_of_ne hq] at hcell'
      exact ⟨e, hcell', rfl⟩

theorem memcpy (hcopy : memcpy h p off src len = some h') : Keeps h h' := by
  rw [Network.memcpy, Option.bind_eq_bind, Option.bind_eq_some_iff] at hcopy
  obtain ⟨bytes, -, hwrite⟩ := hcopy
  exact writeAt hwrite

end Keeps

variable {ι : Type} {σ σ' : State ι} {x : ι} {b : CMByteArray}

/-- The buffer of a variable was handed out, or is null; if it is live it has as many bytes as
the variable says. -/
structure Based (σ : State ι) (b : CMByteArray) : Prop where
  small : b.bufferLen < uintSize
  below : b.buffer < σ.buffers.brk
  null : b.buffer = null → b.bufferLen = 0
  length : ∀ d, σ.buffers.cell b.buffer = some d → d.length = b.bufferLen

theorem Based.keeps (hb : Based σ b) (hk : Keeps σ.buffers σ'.buffers) : Based σ' b where
  small := hb.small
  below := Nat.lt_of_lt_of_le hb.below hk.brk_le
  null := hb.null
  length d' hd' := by
    obtain ⟨d, hd, hlength⟩ := hk.length b.buffer d' hb.below hd'
    rw [← hlength, hb.length d hd]

/-- A live buffer. -/
theorem Based.of_cell {d : List Byte} (hd : σ.buffers.cell b.buffer = some d)
    (hlength : d.length = b.bufferLen) (hsmall : b.bufferLen < uintSize) : Based σ b where
  small := hsmall
  below := σ.buffers.lt_brk hd
  null hnull := absurd hnull (σ.buffers.ne_null hd)
  length d' hd' := by
    rw [hd, Option.some_inj] at hd'
    rw [← hd', hlength]

/-- Lengths that are right, and a buffer that is live or null. -/
theorem Sized.based (hb : Sized σ b) : Based σ b := by
  rcases hb.buffer with ⟨hnull, hzero⟩ | ⟨d, hd, hlength⟩
  · refine ⟨hb.small, ?_, fun _ => hzero, fun d hd => ?_⟩
    · rw [hnull]
      exact σ.buffers.null_lt_brk
    · exact absurd hnull (σ.buffers.ne_null hd)
  · exact .of_cell hd hlength hb.small

/-- What can be read of a buffer behind an allocation. -/
theorem Based.readable_alloc (hb : Based σ b) {bytes : List Byte}
    (hr : Readable (σ.buffers.alloc bytes).2 (.buffer b.buffer off) size) :
    off + size ≤ b.bufferLen ∧ ∃ d, σ.buffers.cell b.buffer = some d := by
  obtain ⟨d, hd, hfits⟩ := hr
  have hnew : b.buffer ≠ (σ.buffers.alloc bytes).1 := Nat.ne_of_lt hb.below
  rw [Heap.alloc_cell, update_of_ne hnew] at hd
  exact ⟨Nat.le_trans hfits (Nat.le_of_eq (hb.length d hd)), d, hd⟩

variable [DecidableEq ι]

/-- What `creatMemory` has done when it comes to its end. -/
structure Moved (σ : State ι) (x : ι) (b : CMByteArray) (size : Nat) (σ' : State ι) : Prop where
  le : size ≤ b.bufferLen
  live : ∃ d, σ.buffers.cell b.buffer = some d
  var : σ'.var = update σ.var x (some { b with buffer := σ.buffers.brk, bufferLen := size })
  keeps : Keeps σ.buffers σ'.buffers
  cell : ∃ d, σ'.buffers.cell σ.buffers.brk = some d ∧ d.length = size

theorem Moved.cell_var {size : Nat} (hm : Moved σ x b size σ') :
    σ'.var x = some { b with buffer := σ.buffers.brk, bufferLen := size } := by
  rw [hm.var, update_self]

theorem Moved.based {size : Nat} (hm : Moved σ x b size σ') (hb : Based σ b) :
    Based σ' { b with buffer := σ.buffers.brk, bufferLen := size } := by
  obtain ⟨d, hd, hlength⟩ := hm.cell
  exact .of_cell hd hlength (Nat.lt_of_le_of_lt hm.le hb.small)

/-- `creatMemory` comes to its end only if the new buffer is no longer than the old one.
The variable has the new one then, and the counter it had. -/
theorem creatMemory_based (hb : Based σ b) (hx : σ.var x = some b) (hsize : size ≠ 0)
    {answer : Answer} (hrun : σ.creatMemory x size = some (σ', answer)) :
    answer = .done ∧ Moved σ x b size σ' := by
  rw [State.creatMemory, if_neg hsize, hx, Option.bind_eq_bind, Option.bind_some,
    Option.bind_eq_bind, Option.bind_eq_some_iff] at hrun
  obtain ⟨buffers, hcopy, hrun⟩ := hrun
  obtain ⟨hr, d, d', hd, -, hlength, hcell⟩ := memcpy_some hsize hcopy
  obtain ⟨hle, hlive⟩ := hb.readable_alloc hr
  have hkeeps : Keeps σ.buffers buffers := (Keeps.alloc _ _).trans (.memcpy hcopy)
  rw [Heap.alloc_cell, update_self, Option.some_inj] at hd
  subst hd
  rw [List.length_replicate] at hlength
  rw [Option.bind_eq_bind, Option.bind_eq_some_iff] at hrun
  obtain ⟨n, hn, hrun⟩ := hrun
  rw [Nat.zero_add] at hle
  have hnew : buffers.cell σ.buffers.brk = some d' := by
    rw [hcell]
    exact update_self _ _ _
  split at hrun
  · obtain ⟨buffers', hdelete, hrun⟩ := Option.bind_eq_some_iff.mp hrun
    cases hrun
    refine ⟨rfl, hle, hlive, rfl, hkeeps.trans (.deleteBuffer hdelete), d', ?_, hlength⟩
    obtain ⟨old, hold⟩ := hlive
    rw [deleteBuffer, if_neg (σ.buffers.ne_null hold)] at hdelete
    obtain ⟨-, -, hcell', -⟩ := Heap.free_some hdelete
    show buffers'.cell σ.buffers.brk = _
    rw [hcell', update_of_ne (Nat.ne_of_gt hb.below), hnew]
  · obtain ⟨counters, -, hrun⟩ := Option.bind_eq_some_iff.mp hrun
    cases hrun
    exact ⟨rfl, hle, hlive, rfl, hkeeps, d', hnew, hlength⟩

end LearnSpace.Network
