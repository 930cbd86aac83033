import LearnSpace.ByteArrays.Capacity

/-!
# Runs with insertions in the key-value store

The machine `byteArrays` with the overloads of `insert` and `prepend` added to its calls.
Every call that is defined leaves each variable's size within its capacity and the capacity
the length of its buffer (`edits_sized`). A write changes no buffer's length, so this holds
whatever the bytes are and wherever they go.
-/

namespace LearnSpace.ByteArrays

open Keel Function KvStore
open KvStore.Pool (Frame)

variable {ι : Type} [Fintype ι] [DecidableEq ι] {σ σ' σ'' : Pool ι} {x : ι}

/-- A call of `byteArrays`, or an overload of `insert` or `prepend`. -/
inductive Edit (ι : Type)
  | call (c : KvStore.Call ι)
  | insert (x : ι) (pos : Nat) (str : Arg ι)
  | prepend (x : ι) (str : Arg ι)

/-- The pool behind an edit and how the edit ends. -/
def Edit.exec (σ : Pool ι) : Edit ι → Option (Pool ι × Outcome)
  | .call c => (byteArrays ι).exec σ c
  | .insert x pos str => σ.insertElement x pos (str.source σ) (str.len σ)
  | .prepend x str => σ.insertElement x 0 (str.source σ) (str.len σ)

/-- All runs of edits that are defined. -/
def edits (ι : Type) [Fintype ι] [DecidableEq ι] : TSys (Pool ι) (Edit ι) where
  init σ := σ = .empty
  step σ e σ' := ∃ outcome, e.exec σ = some (σ', outcome)

/-! ## Writes keep the lengths -/

/-- The live cells are the same, and each holds as many bytes. -/
def SameLengths (h h' : Heap (List Byte)) : Prop :=
  ∀ p, (h'.cell p).map List.length = (h.cell p).map List.length

theorem SameLengths.trans {h h' h'' : Heap (List Byte)} (hh : SameLengths h h')
    (hh' : SameLengths h' h'') : SameLengths h h'' := by
  intro p
  rw [hh' p, hh p]

theorem writeAt_sameLengths {h h' : Heap (List Byte)} {p : Ptr} {off : Nat} {src : List Byte}
    (hwrite : writeAt h p off src = some h') : SameLengths h h' := by
  intro q
  rw [writeAt] at hwrite
  split at hwrite
  · cases hwrite
    rfl
  · simp only [Option.bind_eq_bind, Option.bind_eq_some_iff] at hwrite
    obtain ⟨b, hb, b', hblit, hstore⟩ := hwrite
    obtain ⟨h'', hstore', hcell, -⟩ := Heap.store_eq hb b'
    rw [hstore] at hstore'
    cases hstore'
    rw [hcell]
    by_cases hq : q = p
    · rw [hq, update_self, show h.cell p = some b from hb, Option.map_some, Option.map_some,
        (Buffer.length_blit hblit).2]
    · rw [update_of_ne hq]

omit [Fintype ι] [DecidableEq ι] in
/-- Writes and a size within the capacity leave a variable as it should be. -/
theorem Sized.written {h : Heap (List Byte)} (hh : SameLengths σ.data.heap h) {size : ι → Nat}
    (hσ : Sized σ x) (hsize : size x ≤ σ.capacity x) :
    Sized { σ with data := { σ.data with heap := h }, size := size } x where
  fits := hsize
  buffer := by
    rcases hσ.buffer with hnull | ⟨b, hb, hlength⟩
    · exact .inl hnull
    · right
      have hcell := hh (σ.data.holder x)
      rw [hb, Option.map_some] at hcell
      obtain ⟨b', hb', hlength'⟩ := Option.map_eq_some_iff.mp hcell
      exact ⟨b', hb', hlength'.trans hlength⟩

theorem length_readAt {h : Heap (List Byte)} {p : Ptr} {off len : Nat} {d : List Byte}
    (hread : readAt h p off len = some d) : d.length = len := by
  rw [readAt] at hread
  split at hread
  · rename_i hzero
    cases hread
    exact hzero.symm
  · obtain ⟨b, -, hslice⟩ := Option.bind_eq_some_iff.mp hread
    exact Buffer.length_slice hslice

/-! ## One variable at a time -/

/-- A method on `x` touched no other variable, and `x` is as it should be. -/
structure Settles (x : ι) (σ σ' : Pool ι) : Prop where
  frame : Frame x σ σ'
  sized : Sized σ' x

namespace Settles

omit [Fintype ι] in
theorem all (h : Settles x σ σ') (hσ : ∀ y, Sized σ y) (y : ι) : Sized σ' y := by
  by_cases hy : y = x
  · subst hy
    exact h.sized
  · exact .frame h.frame hy (hσ y)

omit [Fintype ι] [DecidableEq ι] in
theorem trans (hf : Frame x σ σ') (h : Settles x σ' σ'') : Settles x σ σ'' :=
  ⟨hf.trans h.frame, h.sized⟩

end Settles

/-- The other variables' buffers are live. -/
def OthersLive (σ : Pool ι) (x : ι) : Prop :=
  ∀ y, y ≠ x → σ.data.holder y = null ∨ ∃ b, σ.data.heap.cell (σ.data.holder y) = some b

omit [Fintype ι] [DecidableEq ι] in
theorem othersLive (hσ : ∀ y, Sized σ y) (x : ι) : OthersLive σ x := by
  intro y _
  exact (hσ y).live

/-- `resetBuffer`, when it is defined. -/
theorem resetBuffer_settles (hlive : OthersLive σ x) (h : σ.resetBuffer x = some σ') :
    Settles x σ σ' := by
  have hreset := h
  simp only [Pool.resetBuffer, Option.bind_eq_bind, Option.bind_eq_some_iff] at hreset
  obtain ⟨old, hread, buffer, hblit, -⟩ := hreset
  obtain ⟨hfits, -⟩ := Buffer.length_blit hblit
  rw [Nat.zero_add, List.length_replicate] at hfits
  obtain ⟨σ₁, hreset, hsize, hcapacity, hcell, hown, hframe⟩ :=
    Pool.resetBuffer_eq hlive hread hfits
  rw [hreset] at h
  cases h
  refine ⟨hframe, ?_, .inr ⟨_, hcell, ?_⟩⟩
  · rw [hsize, hcapacity, ← length_readAt hread]
    exact hfits
  · rw [hcapacity, Pool.length_filled hfits]

/-- `resetBuffer` behind a change of the fields of `x`. -/
theorem reset_settles (hσ : ∀ y, Sized σ y) {m n : Nat}
    (h : Pool.resetBuffer
      { σ with size := update σ.size x m, capacity := update σ.capacity x n } x = some σ') :
    Settles x σ σ' :=
  .trans (.fields x σ m n) (resetBuffer_settles (othersLive hσ x) h)

theorem resize_settles (hσ : ∀ y, Sized σ y) {n : Nat}
    (h : Pool.resetBuffer { σ with capacity := update σ.capacity x n } x = some σ') :
    Settles x σ σ' := by
  apply reset_settles hσ (m := σ.size x) (n := n)
  rw [update_eq_self]
  exact h

theorem detach_settles (hσ : ∀ y, Sized σ y) (h : σ.detach x = some σ') : Settles x σ σ' := by
  rw [Pool.detach] at h
  split at h
  · cases h
    exact ⟨.refl x σ, hσ x⟩
  · exact resetBuffer_settles (othersLive hσ x) h

/-! ## Making room -/

omit [Fintype ι] [DecidableEq ι] in
/-- The content is the front of the buffer, and can be read through the pointer. -/
theorem Sized.read (h : Sized σ x) :
    readAt σ.data.heap (σ.data.holder x) 0 (σ.size x) = some (σ.content x) := by
  have hfits := h.fits
  rcases h.buffer with ⟨_, hcapacity⟩ | ⟨b, hb, hlength⟩
  · have hzero : σ.size x = 0 := by omega
    rw [Pool.content, hzero, readAt, if_pos rfl, List.take_zero]
  · rw [readAt_eq hb (by omega), Pool.content, hb, Option.getD_some, List.drop_zero]

omit [Fintype ι] [DecidableEq ι] in
theorem Sized.length_content (h : Sized σ x) : (σ.content x).length = σ.size x :=
  length_readAt h.read

/-- The buffer of `x` when `insertElement` has made room for `k` bytes: the old one, if it is
not shared and is large enough, else the content with zeros behind. -/
def roomBuffer (σ : Pool ι) (x : ι) (k : Nat) : List Byte :=
  if σ.data.unique x = true ∧ σ.size x + k ≤ σ.capacity x then
    (σ.data.heap.cell (σ.data.holder x)).getD []
  else Pool.filled (σ.content x) (grown (σ.capacity x) (σ.size x) k)

/-- What `makeRoom` leaves: no field of the pool has changed but the capacity of `x`, which is
the length of a buffer of its own. -/
structure Roomy (x : ι) (k : Nat) (σ σ' : Pool ι) : Prop where
  size : σ'.size = σ.size
  capacity : σ'.capacity x = grown (σ.capacity x) (σ.size x) k
  buffer : σ'.data.heap.cell (σ'.data.holder x) = some (roomBuffer σ x k)
  length : (roomBuffer σ x k).length = grown (σ.capacity x) (σ.size x) k
  own : σ'.data.unique x = true
  frame : Frame x σ σ'

/-- A buffer that is replaced holds the content and zeros. -/
theorem replaced_roomy (hσ : ∀ y, Sized σ y) {k : Nat}
    (hnew : ¬ (σ.data.unique x = true ∧ σ.size x + k ≤ σ.capacity x)) :
    ∃ σ', Pool.resetBuffer
        { σ with capacity := update σ.capacity x (grown (σ.capacity x) (σ.size x) k) } x =
          some σ' ∧ Roomy x k σ σ' := by
  have hle := le_grown (hσ x).fits k
  let resized : Pool ι :=
    { σ with capacity := update σ.capacity x (grown (σ.capacity x) (σ.size x) k) }
  have hgrown : resized.capacity x = grown (σ.capacity x) (σ.size x) k := update_self ..
  have hframe : Frame x σ resized := by
    simpa using Frame.fields x σ (σ.size x) (grown (σ.capacity x) (σ.size x) k)
  have hlive : OthersLive resized x := othersLive hσ x
  have hread : readAt resized.data.heap (resized.data.holder x) 0 (resized.size x) =
      some (σ.content x) := (hσ x).read
  have hfits : (σ.content x).length ≤ resized.capacity x := by
    rw [(hσ x).length_content, hgrown]
    omega
  obtain ⟨σ', hreset, hsize, hcapacity, hcell, hown, hframe'⟩ :=
    Pool.resetBuffer_eq hlive hread hfits
  rw [hgrown] at hcell hfits
  have hbuffer : roomBuffer σ x k =
      Pool.filled (σ.content x) (grown (σ.capacity x) (σ.size x) k) := if_neg hnew
  refine ⟨σ', hreset, hsize, ?_, ?_, ?_, hown, hframe.trans hframe'⟩
  · rw [hcapacity, hgrown]
  · rw [hcell, hbuffer]
  · rw [hbuffer, Pool.length_filled hfits]

/-- `makeRoom` is always defined. -/
theorem makeRoom_roomy (hσ : ∀ y, Sized σ y) (x : ι) (k : Nat) :
    ∃ σ', σ.makeRoom x k = some σ' ∧ Roomy x k σ σ' := by
  unfold Pool.makeRoom
  by_cases hgrow : σ.size x + k > σ.capacity x
  · -- the buffer is replaced, and then there is nothing to detach from
    obtain ⟨σ', hreset, hroomy⟩ := replaced_roomy (x := x) (k := k) hσ (by omega)
    rw [grown, if_pos hgrow] at hreset
    refine ⟨σ', ?_, hroomy⟩
    simp only [if_pos hgrow, hreset, Option.bind_eq_bind, Option.bind_some, Pool.detach,
      hroomy.own, if_true]
  · simp only [if_neg hgrow, Option.bind_eq_bind, Option.bind_some, Pool.detach]
    have hgrown : grown (σ.capacity x) (σ.size x) k = σ.capacity x := if_neg hgrow
    by_cases hown : σ.data.unique x = true
    · have hbuffer : ∃ b, σ.data.heap.cell (σ.data.holder x) = some b ∧
          b.length = σ.capacity x := by
        rcases (hσ x).buffer with ⟨hnull, _⟩ | hb
        · exact absurd hnull (Shared.unique_iff.mp hown).1
        · exact hb
      obtain ⟨b, hb, hlength⟩ := hbuffer
      have hroom : roomBuffer σ x k = b := by
        rw [roomBuffer, if_pos ⟨hown, by omega⟩, hb, Option.getD_some]
      refine ⟨σ, if_pos hown, rfl, hgrown.symm, ?_, ?_, hown, .refl x σ⟩
      · rw [hroom]
        exact hb
      · rw [hroom, hgrown]
        exact hlength
    · obtain ⟨σ', hreset, hroomy⟩ :=
        replaced_roomy (x := x) (k := k) hσ (fun h => hown h.1)
      rw [hgrown, update_eq_self] at hreset
      exact ⟨σ', (if_neg hown).trans hreset, hroomy⟩

theorem Roomy.sized {k : Nat} (h : Roomy x k σ σ') (hσ : ∀ y, Sized σ y) (y : ι) :
    Sized σ' y := by
  have hle := le_grown (hσ x).fits k
  have hsettles : Settles x σ σ' := by
    refine ⟨h.frame, ?_, .inr ⟨_, h.buffer, ?_⟩⟩
    · rw [h.size, h.capacity]
      omega
    · rw [h.length, h.capacity]
  exact hsettles.all hσ y

/-! ## Every edit -/

theorem insertElement_sized (hσ : ∀ y, Sized σ y) {pos k : Nat} {src : Source}
    {outcome : Outcome} (h : σ.insertElement x pos src k = some (σ', outcome)) (y : ι) :
    Sized σ' y := by
  obtain ⟨σ₁, hroom, hroomy⟩ := makeRoom_roomy hσ x k
  rw [Pool.insertElement, hroom] at h
  split at h
  · cases h
    exact hσ y
  · simp only [Option.bind_eq_bind, Option.bind_some, Option.bind_eq_some_iff] at h
    obtain ⟨tail, -, h₁, hwrite₁, bytes, -, h₂, hwrite₂, heq⟩ := h
    cases heq
    have hlengths : SameLengths σ₁.data.heap h₂ :=
      (writeAt_sameLengths hwrite₁).trans (writeAt_sameLengths hwrite₂)
    have hsized := hroomy.sized hσ y
    apply hsized.written hlengths
    by_cases hy : y = x
    · subst hy
      rw [update_self, hroomy.capacity]
      exact le_grown (hσ y).fits k
    · rw [update_of_ne hy]
      exact hsized.fits

theorem reomveElement_sized (hσ : ∀ y, Sized σ y) {pos len : Nat} {outcome : Outcome}
    (h : σ.reomveElement x pos len = some (σ', outcome)) (y : ι) : Sized σ' y := by
  rw [Pool.reomveElement] at h
  split at h
  · cases h
    exact hσ y
  · simp only [Option.bind_eq_bind, Option.bind_eq_some_iff] at h
    obtain ⟨σ₁, hdetach, rest, -, h₁, hwrite₁, h₂, hwrite₂, heq⟩ := h
    cases heq
    have hlengths : SameLengths σ₁.data.heap h₂ :=
      (writeAt_sameLengths hwrite₁).trans (writeAt_sameLengths hwrite₂)
    have hsized := (detach_settles hσ hdetach).all hσ y
    apply hsized.written hlengths
    have hfits := hsized.fits
    by_cases hy : y = x
    · subst hy
      rw [update_self]
      omega
    · rw [update_of_ne hy]
      exact hfits

omit [Fintype ι] [DecidableEq ι] in
theorem poke_sized (hσ : ∀ y, Sized σ y) {i : Nat} {b : Byte} (h : σ.poke x i b = some σ')
    (y : ι) : Sized σ' y := by
  obtain ⟨heap, hwrite, heq⟩ := Option.bind_eq_some_iff.mp h
  cases heq
  exact (hσ y).written (writeAt_sameLengths hwrite) (hσ y).fits

omit [Fintype ι] [DecidableEq ι] in
theorem write_sized (hσ : ∀ y, Sized σ y) {entry : Entry} {i : Nat} {b : Byte}
    {outcome : Outcome} (h : σ.write entry x i b = some (σ', outcome)) (y : ι) : Sized σ' y := by
  cases entry with
  | index =>
      simp only [Pool.write, Pool.writeIndex] at h
      split at h
      · cases h
        exact hσ y
      · obtain ⟨σ₁, hpoke, heq⟩ := Option.bind_eq_some_iff.mp h
        cases heq
        exact poke_sized hσ hpoke y
  | data =>
      obtain ⟨σ₁, hpoke, heq⟩ := Option.bind_eq_some_iff.mp h
      cases heq
      exact poke_sized hσ hpoke y
  | begin =>
      obtain ⟨σ₁, hpoke, heq⟩ := Option.bind_eq_some_iff.mp h
      cases heq
      exact poke_sized hσ hpoke y

theorem constructCapacity_sized (hσ : ∀ y, Sized σ y) {capacity : Nat}
    (h : σ.constructCapacity x capacity = some σ') : ∀ y, Sized σ' y :=
  (reset_settles hσ h).all hσ

/-- A constructor that inserts into the new array. -/
theorem construct_insert_sized (hσ : ∀ y, Sized σ y) {capacity k : Nat} {src : Source}
    {outcome : Outcome}
    (h : (do
        let σ ← σ.constructCapacity x capacity
        σ.insertElement x 0 src k) = some (σ', outcome)) : ∀ y, Sized σ' y := by
  obtain ⟨σ₁, hconstruct, hinsert⟩ := Option.bind_eq_some_iff.mp h
  exact insertElement_sized (constructCapacity_sized hσ hconstruct) hinsert

/-- An edit that is defined keeps sizes, capacities and buffers in step. -/
theorem exec_sized (hσ : ∀ y, Sized σ y) {e : Edit ι} {outcome : Outcome}
    (h : e.exec σ = some (σ', outcome)) : ∀ y, Sized σ' y := by
  -- a call that answers nothing but the pool
  have hmap : ∀ {r : Option (Pool ι)}, r.map (·, Outcome.done) = some (σ', outcome) →
      r = some σ' := by
    intro r hr
    obtain ⟨τ, hτ, heq⟩ := Option.map_eq_some_iff.mp hr
    cases heq
    exact hτ
  cases e with
  | insert x pos str => exact insertElement_sized hσ h
  | prepend x str => exact insertElement_sized hσ h
  | call c =>
      cases c with
      | construct x => exact constructCapacity_sized hσ (hmap h)
      | constructCapacity x capacity => exact constructCapacity_sized hσ (hmap h)
      | constructPtrLen x bytes => exact construct_insert_sized hσ h
      | constructStr x str => exact construct_insert_sized hσ h
      | copyConstruct x other =>
          cases h
          exact .copyFrom hσ x other
      | moveConstruct x other =>
          cases h
          exact .moveFrom hσ x other
      | copyAssign x other =>
          cases h
          exact .copyFrom hσ x other
      | moveAssign x other =>
          cases h
          exact .moveFrom hσ x other
      | destroy x =>
          cases h
          exact .release hσ x
      | appendBytes x bytes => exact insertElement_sized hσ h
      | appendStr x str => exact insertElement_sized hσ h
      | append x str => exact insertElement_sized hσ h
      | remove x pos len => exact reomveElement_sized hσ h
      | clear x => exact (reset_settles hσ (hmap h)).all hσ
      | squeeze x => exact (resize_settles hσ (hmap h)).all hσ
      | detach x => exact (detach_settles hσ (hmap h)).all hσ
      | write entry x pos b => exact write_sized hσ h

/-- In every state of every run of edits. -/
theorem edits_sized : (edits ι).Invariant (fun σ => ∀ y, Sized σ y) := by
  apply TSys.Inductive.invariant
  constructor
  · intro σ hinit
    rw [hinit]
    exact Sized.empty
  · intro σ e σ' hσ hstep
    obtain ⟨outcome, hexec⟩ := hstep
    exact exec_sized hσ hexec

end LearnSpace.ByteArrays
