import LearnSpace.ByteArrays.Insertion

/-!
# An array that is appended to itself

`append(const CMByteArray&)` takes the pointer of its argument before the growth inside
`insertElement`. When the argument is on the buffer of the array itself, the growth frees that
buffer unless another variable holds it, and the bytes are then copied out of freed memory.

Variables on one buffer have one size in every state that runs of edits reach (`edits_agree`):
a size changes only where the buffer is its variable's own.
-/

namespace LearnSpace.ByteArrays

open Keel Function KvStore
open KvStore.Pool (Frame)

variable {ι : Type} {σ σ' : Pool ι} {x y : ι}

/-! ## Variables on one buffer -/

/-- Variables on one buffer have one size. -/
def Agree (σ : Pool ι) : Prop := ∀ x y, σ.data.holder x = σ.data.holder y → σ.size x = σ.size y

/-- Variables on one buffer have the same bytes. -/
theorem Agree.content_eq (h : Agree σ) (hshare : σ.data.holder y = σ.data.holder x) :
    σ.content y = σ.content x := by
  rw [Pool.content, Pool.content, hshare, h y x hshare]

/-- Another variable keeps its bytes. -/
theorem content_frame (hf : Frame x σ σ') (hy : y ≠ x) (h : Sized σ y) :
    σ'.content y = σ.content y := by
  have hfits := h.fits
  rw [Pool.content, Pool.content, hf.holder y hy, hf.size y hy]
  rcases h.buffer with ⟨_, hcapacity⟩ | ⟨b, hb, -⟩
  · have hzero : σ.size y = 0 := by omega
    rw [hzero, List.take_zero, List.take_zero]
  · rw [hf.cell y b hy hb, hb]

/-- A step that moved and resized nobody but `x`, which nobody shares a buffer with behind
it. -/
structure Alone (x : ι) (σ σ' : Pool ι) : Prop where
  own : ∀ y, y ≠ x → σ'.data.holder y ≠ σ'.data.holder x
  holder : ∀ y, y ≠ x → σ'.data.holder y = σ.data.holder y
  size : ∀ y, y ≠ x → σ'.size y = σ.size y

namespace Alone

theorem agree (h : Alone x σ σ') (hσ : Agree σ) : Agree σ' := by
  intro y z hyz
  by_cases hy : y = x
  · by_cases hz : z = x
    · rw [hy, hz]
    · exact absurd (hyz.symm.trans (by rw [hy])) (h.own z hz)
  · by_cases hz : z = x
    · exact absurd (hyz.trans (by rw [hz])) (h.own y hy)
    · rw [h.holder y hy, h.holder z hz] at hyz
      rw [h.size y hy, h.size z hz]
      exact hσ y z hyz

/-- The bytes and the size of `x` may change behind the step. -/
theorem written [DecidableEq ι] (h : Alone x σ σ') (heap : Heap (List Byte)) (m : Nat) :
    Alone x σ
      { σ' with data := { σ'.data with heap := heap }, size := update σ'.size x m } where
  own := h.own
  holder := h.holder
  size y hy := (update_of_ne hy _ _).trans (h.size y hy)

end Alone

variable [Fintype ι] [DecidableEq ι]

theorem Alone.of_own (hown : σ'.data.unique x = true) (hf : Frame x σ σ') : Alone x σ σ' :=
  ⟨(Shared.unique_iff.mp hown).2, hf.holder, hf.size⟩

theorem resetBuffer_alone (hlive : OthersLive σ x) (h : σ.resetBuffer x = some σ') :
    σ'.data.unique x = true ∧ Frame x σ σ' := by
  have hreset := h
  simp only [Pool.resetBuffer, Option.bind_eq_bind, Option.bind_eq_some_iff] at hreset
  obtain ⟨old, hread, buffer, hblit, -⟩ := hreset
  obtain ⟨hfits, -⟩ := Buffer.length_blit hblit
  rw [Nat.zero_add, List.length_replicate] at hfits
  obtain ⟨σ₁, hreset, -, -, -, hown, hframe⟩ := Pool.resetBuffer_eq hlive hread hfits
  rw [hreset] at h
  cases h
  exact ⟨hown, hframe⟩

/-- `resetBuffer` behind a change of the fields of `x`. -/
theorem reset_alone (hσ : ∀ y, Sized σ y) {m n : Nat}
    (h : Pool.resetBuffer
      { σ with size := update σ.size x m, capacity := update σ.capacity x n } x = some σ') :
    Alone x σ σ' := by
  obtain ⟨hown, hframe⟩ := resetBuffer_alone
    (σ := { σ with size := update σ.size x m, capacity := update σ.capacity x n })
    (othersLive hσ x) h
  exact .of_own hown ((Frame.fields x σ m n).trans hframe)

theorem detach_alone (hσ : ∀ y, Sized σ y) (h : σ.detach x = some σ') : Alone x σ σ' := by
  rw [Pool.detach] at h
  split at h
  · rename_i hown
    cases h
    exact .of_own hown (.refl x σ)
  · obtain ⟨hown, hframe⟩ := resetBuffer_alone (othersLive hσ x) h
    exact .of_own hown hframe

theorem insertElement_agree (hσ : ∀ y, Sized σ y) (hagree : Agree σ) {pos k : Nat} {src : Source}
    {outcome : Outcome} (h : σ.insertElement x pos src k = some (σ', outcome)) : Agree σ' := by
  obtain ⟨σ₁, hroom, hroomy⟩ := makeRoom_roomy hσ x k
  rw [Pool.insertElement, hroom] at h
  split at h
  · cases h
    exact hagree
  · simp only [Option.bind_eq_bind, Option.bind_some, Option.bind_eq_some_iff] at h
    obtain ⟨tail, -, h₁, -, bytes, -, h₂, -, heq⟩ := h
    cases heq
    exact ((Alone.of_own hroomy.own hroomy.frame).written h₂ _).agree hagree

theorem reomveElement_agree (hσ : ∀ y, Sized σ y) (hagree : Agree σ) {pos len : Nat}
    {outcome : Outcome} (h : σ.reomveElement x pos len = some (σ', outcome)) : Agree σ' := by
  rw [Pool.reomveElement] at h
  split at h
  · cases h
    exact hagree
  · simp only [Option.bind_eq_bind, Option.bind_eq_some_iff] at h
    obtain ⟨σ₁, hdetach, rest, -, h₁, -, h₂, -, heq⟩ := h
    cases heq
    exact ((detach_alone hσ hdetach).written h₂ _).agree hagree

omit [Fintype ι] [DecidableEq ι] in
theorem poke_agree (hagree : Agree σ) {i : Nat} {b : Byte} (h : σ.poke x i b = some σ') :
    Agree σ' := by
  obtain ⟨heap, -, heq⟩ := Option.bind_eq_some_iff.mp h
  cases heq
  exact hagree

omit [Fintype ι] [DecidableEq ι] in
theorem write_agree (hagree : Agree σ) {entry : Entry} {i : Nat} {b : Byte}
    {outcome : Outcome} (h : σ.write entry x i b = some (σ', outcome)) : Agree σ' := by
  cases entry with
  | index =>
      simp only [Pool.write, Pool.writeIndex] at h
      split at h
      · cases h
        exact hagree
      · obtain ⟨σ₁, hpoke, heq⟩ := Option.bind_eq_some_iff.mp h
        cases heq
        exact poke_agree hagree hpoke
  | data =>
      obtain ⟨σ₁, hpoke, heq⟩ := Option.bind_eq_some_iff.mp h
      cases heq
      exact poke_agree hagree hpoke
  | begin =>
      obtain ⟨σ₁, hpoke, heq⟩ := Option.bind_eq_some_iff.mp h
      cases heq
      exact poke_agree hagree hpoke

/-- Pointing `x` at what `p` is the buffer of, with the size its holders have. -/
theorem assign_agree {p : Ptr} {m n : Nat} (hagree : Agree σ)
    (hp : ∀ z, z ≠ x → σ.data.holder z = p → σ.size z = m) :
    Agree
      { data := σ.data.assign x p
        size := update σ.size x m
        capacity := update σ.capacity x n } := by
  intro y z hyz
  dsimp only at hyz ⊢
  rw [Shared.assign_holder] at hyz
  by_cases hy : y = x
  · by_cases hz : z = x
    · rw [hy, hz]
    · rw [hy, update_self, update_of_ne hz] at hyz
      rw [hy, update_self, update_of_ne hz]
      exact (hp z hz hyz.symm).symm
  · by_cases hz : z = x
    · rw [hz, update_self, update_of_ne hy] at hyz
      rw [hz, update_self, update_of_ne hy]
      exact hp y hy hyz
    · rw [update_of_ne hy, update_of_ne hz] at hyz ⊢
      exact hagree y z hyz

theorem copyFrom_agree (hagree : Agree σ) (x other : ι) : Agree (σ.copyFrom x other) :=
  assign_agree hagree (fun z _ hz => hagree z other hz)

theorem release_agree (hσ : ∀ y, Sized σ y) (hagree : Agree σ) (x : ι) : Agree (σ.release x) := by
  refine assign_agree hagree (fun z _ hz => ?_)
  have hfits := (hσ z).fits
  rcases (hσ z).buffer with ⟨-, hcapacity⟩ | ⟨b, hb, -⟩
  · omega
  · exact absurd hz (Heap.ne_null _ hb)

/-- A constructor that inserts into the new array. -/
theorem construct_insert_agree (hσ : ∀ y, Sized σ y) (hagree : Agree σ) {capacity k : Nat}
    {src : Source} {outcome : Outcome}
    (h : (do
        let σ ← σ.constructCapacity x capacity
        σ.insertElement x 0 src k) = some (σ', outcome)) : Agree σ' := by
  obtain ⟨σ₁, hconstruct, hinsert⟩ := Option.bind_eq_some_iff.mp h
  exact insertElement_agree (constructCapacity_sized hσ hconstruct)
    ((reset_alone hσ hconstruct).agree hagree) hinsert

/-- An edit that is defined keeps the sizes of variables on one buffer alike. -/
theorem exec_agree (hσ : ∀ y, Sized σ y) (hagree : Agree σ) {e : Edit ι} {outcome : Outcome}
    (h : e.exec σ = some (σ', outcome)) : Agree σ' := by
  -- a call that answers nothing but the pool
  have hmap : ∀ {r : Option (Pool ι)}, r.map (·, Outcome.done) = some (σ', outcome) →
      r = some σ' := by
    intro r hr
    obtain ⟨τ, hτ, heq⟩ := Option.map_eq_some_iff.mp hr
    cases heq
    exact hτ
  cases e with
  | insert x pos str => exact insertElement_agree hσ hagree h
  | prepend x str => exact insertElement_agree hσ hagree h
  | call c =>
      cases c with
      | construct x => exact (reset_alone hσ (hmap h)).agree hagree
      | constructCapacity x capacity => exact (reset_alone hσ (hmap h)).agree hagree
      | constructPtrLen x bytes => exact construct_insert_agree hσ hagree h
      | constructStr x str => exact construct_insert_agree hσ hagree h
      | copyConstruct x other =>
          cases h
          exact copyFrom_agree hagree x other
      | moveConstruct x other =>
          cases h
          exact release_agree (.copyFrom hσ x other) (copyFrom_agree hagree x other) other
      | copyAssign x other =>
          cases h
          exact copyFrom_agree hagree x other
      | moveAssign x other =>
          cases h
          exact release_agree (.copyFrom hσ x other) (copyFrom_agree hagree x other) other
      | destroy x =>
          cases h
          exact release_agree hσ hagree x
      | appendBytes x bytes => exact insertElement_agree hσ hagree h
      | appendStr x str => exact insertElement_agree hσ hagree h
      | append x str => exact insertElement_agree hσ hagree h
      | remove x pos len => exact reomveElement_agree hσ hagree h
      | clear x => exact (reset_alone hσ (hmap h)).agree hagree
      | squeeze x =>
          refine (reset_alone (x := x) (m := σ.size x) (n := σ.size x) hσ ?_).agree hagree
          rw [update_eq_self]
          exact hmap h
      | detach x => exact (detach_alone hσ (hmap h)).agree hagree
      | write entry x pos b => exact write_agree hagree h

/-- In every state of every run of edits. -/
theorem edits_agree : (edits ι).Invariant Agree := by
  have hboth : (edits ι).Invariant (fun σ => (∀ y, Sized σ y) ∧ Agree σ) := by
    apply TSys.Inductive.invariant
    constructor
    · intro σ hinit
      rw [hinit]
      exact ⟨Sized.empty, fun _ _ _ => rfl⟩
    · rintro σ e σ' ⟨hσ, hagree⟩ ⟨outcome, hexec⟩
      exact ⟨exec_sized hσ hexec, exec_agree hσ hagree hexec⟩
  exact fun σ hreach => (hboth σ hreach).2

/-! ## Appending an array to itself -/

/-- The growth frees the buffer of a variable that was its only holder. -/
theorem makeRoom_frees {k : Nat} {b : List Byte} (hσ : ∀ y, Sized σ y)
    (hown : σ.data.unique x = true) (hb : σ.data.heap.cell (σ.data.holder x) = some b)
    (hgrow : σ.size x + k > σ.capacity x) (hroom : σ.makeRoom x k = some σ') :
    σ'.data.heap.cell (σ.data.holder x) = none := by
  obtain ⟨σ₁, hreset, hroomy⟩ := replaced_roomy (x := x) (k := k) hσ (by omega)
  rw [grown, if_pos hgrow] at hreset
  rw [Pool.makeRoom, if_pos hgrow] at hroom
  simp only [hreset, Option.bind_eq_bind, Option.bind_some] at hroom
  rw [Pool.detach, if_pos hroomy.own] at hroom
  cases hroom
  simp only [Pool.resetBuffer, Option.bind_eq_bind, Option.bind_eq_some_iff] at hreset
  obtain ⟨old, -, buffer, -, heq⟩ := hreset
  cases heq
  exact Shared.fresh_cell_old hown hb

/-- The bytes of `x` are still to be read where they were when room has been made: there are
none, or there was room already, or another variable is on their buffer. -/
theorem makeRoom_read (hσ : ∀ y, Sized σ y) (hagree : Agree σ)
    (hok : σ.size x = 0 ∨ 2 * σ.size x ≤ σ.capacity x ∨
      ∃ y, y ≠ x ∧ σ.data.holder y = σ.data.holder x)
    (hroom : σ.makeRoom x (σ.size x) = some σ') (hroomy : Roomy x (σ.size x) σ σ') :
    readAt σ'.data.heap (σ.data.holder x) 0 (σ.size x) = some (σ.content x) := by
  by_cases hzero : σ.size x = 0
  · rw [readAt, if_pos hzero, Pool.content, hzero, List.take_zero]
  by_cases hothers : ∃ y, y ≠ x ∧ σ.data.holder y = σ.data.holder x
  · -- the other holder keeps the buffer alive
    obtain ⟨y, hy, hshare⟩ := hothers
    have hread := ((hσ y).frame hroomy.frame hy).read
    rw [hroomy.frame.holder y hy, hroomy.frame.size y hy, hagree y x hshare, hshare,
      content_frame hroomy.frame hy (hσ y), hagree.content_eq hshare] at hread
    exact hread
  · -- `x` is alone on its buffer and stays there
    have hfits := (hok.resolve_left hzero).resolve_right hothers
    have hown : σ.data.unique x = true := by
      refine Shared.unique_iff.mpr ⟨fun hnull => ?_, fun y hy hshare => hothers ⟨y, hy, hshare⟩⟩
      have hle := (hσ x).fits
      obtain ⟨b, hb, -⟩ := (hσ x).cell_of_pos (by omega)
      exact Heap.ne_null _ hb hnull
    have hstays : σ.makeRoom x (σ.size x) = some σ := by
      rw [Pool.makeRoom, if_neg (by omega)]
      simp only [Option.bind_eq_bind, Option.bind_some]
      rw [Pool.detach, if_pos hown]
    rw [hroom] at hstays
    cases hstays
    exact (hσ x).read

/-- Bytes that are there after the growth are appended. -/
theorem insertElement_end {σ₁ : Pool ι} {d : List Byte} {s : Source} (hσ : ∀ y, Sized σ y)
    (hroom : σ.makeRoom x d.length = some σ₁) (hroomy : Roomy x d.length σ σ₁)
    (hsrc : s.read σ₁.data.heap d.length = some d) :
    ∃ σ', σ.insertElement x (σ.size x) s d.length = some (σ', .done) ∧
      σ'.content x = σ.content x ++ d := by
  have hfits : σ.size x + d.length ≤ (roomBuffer σ x d.length).length := by
    rw [hroomy.length]
    exact le_grown (hσ x).fits _
  have hsize : σ₁.size x = σ.size x := by rw [hroomy.size]
  obtain ⟨h', hwrite, hh⟩ := writeAt_eq (σ.size x) d hroomy.buffer hfits
  refine ⟨{ σ₁ with
      data := { σ₁.data with heap := h' }
      size := update σ₁.size x (σ.size x + d.length) }, ?_, ?_⟩
  · rw [Pool.insertElement, if_neg (by simp), hroom]
    simp only [Option.bind_eq_bind, Option.bind_some, hsize, Nat.sub_self]
    -- there is no tail to move
    simp only [readAt, writeAt, if_true, Option.bind_some, hsrc]
    rw [← writeAt, hwrite]
    rfl
  · have hlength := (hσ x).length_content
    show ((h'.cell (σ₁.data.holder x)).getD []).take (update σ₁.size x _ x) = _
    rw [hh, update_self, update_self, Option.getD_some, roomBuffer_take (hσ x)]
    exact List.take_left' (by rw [List.length_append]; omega)

/-- **Appending an array to itself.** In every state that runs of edits reach, and for every
variable on the buffer of `x`, `x` itself among them, `x.append` of it ends with the bytes of
`x` twice if and only if there are none, or `x` has room for them, or another variable holds
the buffer too. Otherwise the copy reads what the growth has freed. -/
theorem append_self_iff (hσ : (edits ι).Reachable σ) (x str : ι)
    (hshare : σ.data.holder str = σ.data.holder x) :
    (∃ σ', σ.append x str = some (σ', .done) ∧ σ'.content x = σ.content x ++ σ.content x) ↔
      σ.size x = 0 ∨ 2 * σ.size x ≤ σ.capacity x ∨
        ∃ y, y ≠ x ∧ σ.data.holder y = σ.data.holder x := by
  have hsized := edits_sized σ hσ
  have hagree := edits_agree σ hσ
  have hsize : σ.size str = σ.size x := hagree str x hshare
  have hlength := (hsized x).length_content
  obtain ⟨σ₁, hroom, hroomy⟩ := makeRoom_roomy hsized x (σ.size x)
  rw [Pool.append, hshare, hsize]
  constructor
  · rintro ⟨σ', hexec, -⟩
    by_contra hn
    rw [not_or, not_or] at hn
    obtain ⟨hne, hgrow, hothers⟩ := hn
    have hfits := (hsized x).fits
    obtain ⟨b, hb, -⟩ := (hsized x).cell_of_pos (by omega)
    have hown : σ.data.unique x = true :=
      Shared.unique_iff.mpr ⟨Heap.ne_null _ hb, fun y hy hy' => hothers ⟨y, hy, hy'⟩⟩
    have hfreed := makeRoom_frees hsized hown hb (by omega) hroom
    have hsize₁ : σ₁.size x = σ.size x := by rw [hroomy.size]
    rw [Pool.insertElement, if_neg (by simp), hroom] at hexec
    simp only [Option.bind_eq_bind, Option.bind_some, hsize₁, Nat.sub_self] at hexec
    -- no tail is moved, and the copy starts from the freed buffer
    simp only [readAt, writeAt, if_true, Option.bind_some, Source.read, if_neg hne, Heap.load,
      hfreed, Option.bind_eq_bind, Option.bind_none] at hexec
    cases hexec
  · intro hok
    have hread := makeRoom_read hsized hagree hok hroom hroomy
    rw [← hlength] at hread hroom hroomy
    obtain ⟨σ', hexec, hcontent⟩ := insertElement_end (s := .buffer (σ.data.holder x) 0) hsized
      hroom hroomy hread
    rw [hlength] at hexec
    exact ⟨σ', hexec, hcontent⟩

/-- `CMByteArray a("AB", 2);` -/
def pairAB : Option (Pool (Fin 2)) :=
  (Edit.exec .empty (.call (.constructPtrLen 0 [65, 66]))).map Prod.fst

theorem pairAB_isSome : pairAB.isSome := by decide +kernel

theorem pairAB_reachable : (edits (Fin 2)).Reachable (pairAB.get pairAB_isSome) := by
  obtain ⟨r, hr, h⟩ := Option.map_eq_some_iff.mp (Option.some_get pairAB_isSome).symm
  have hstart : (edits (Fin 2)).Reachable (.empty : Pool (Fin 2)) := .init rfl
  have hr' : (edits (Fin 2)).Reachable r.1 := hstart.step ⟨r.2, hr⟩
  rw [h] at hr'
  exact hr'

/-- The theorem at this array, whose buffer of three bytes is its own. -/
theorem append_self_iff_pair :
    (∃ σ', (pairAB.get pairAB_isSome).append 0 0 = some (σ', .done) ∧
        σ'.content 0 = (pairAB.get pairAB_isSome).content 0 ++
          (pairAB.get pairAB_isSome).content 0) ↔
      (pairAB.get pairAB_isSome).size 0 = 0 ∨
        2 * (pairAB.get pairAB_isSome).size 0 ≤ (pairAB.get pairAB_isSome).capacity 0 ∨
        ∃ y, y ≠ 0 ∧ (pairAB.get pairAB_isSome).data.holder y =
          (pairAB.get pairAB_isSome).data.holder 0 :=
  append_self_iff pairAB_reachable 0 0 rfl

/-- `a.append(a)` has no outcome here: it reads what its own growth has freed. -/
theorem append_self_reads_freed :
    (edits (Fin 2)).Reachable (pairAB.get pairAB_isSome) ∧
      (pairAB.get pairAB_isSome).content 0 = [65, 66] ∧
      ((pairAB.get pairAB_isSome).append 0 0).isNone = true :=
  ⟨pairAB_reachable, by decide +kernel, by decide +kernel⟩

end LearnSpace.ByteArrays
