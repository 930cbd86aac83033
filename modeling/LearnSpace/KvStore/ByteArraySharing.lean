import LearnSpace.KvStore.ByteArrayLists

/-!
# Writes through an element reach the sharers

`operator[]`, `data` and `begin` hand out the buffer as it is: none of the
three detaches first. So a write through one of them lands in the buffer of
every variable that shares it (`write_spec`), and the other variables keep
their bytes just when there is no such variable or the byte was there already.
-/

namespace LearnSpace.KvStore

open Keel Function

variable {ι : Type}

/-- The calls on the pool, and writes below the size. -/
def InBounds (σ : Pool ι) : Call ι → Prop
  | .write _ x pos _ => pos < σ.size x
  | call => Allowed σ call

/-- Nobody else has the buffer of `x`, or the byte to write is there already. -/
def Isolated (σ : Pool ι) (x : ι) (pos : Nat) (b : Byte) : Prop :=
  (∀ y, y ≠ x → σ.data.holder y ≠ σ.data.holder x) ∨ (σ.content x)[pos]? = some b

/-- The calls on the pool, and writes below the size that are isolated. -/
def IsolatedWrites (σ : Pool ι) : Call ι → Prop
  | .write _ x pos b => pos < σ.size x ∧ Isolated σ x pos b
  | call => Allowed σ call

/-- Below the size the three entry points write alike. -/
theorem Pool.write_eq {σ : Pool ι} {x : ι} {pos : Nat} (entry : Entry)
    (hpos : pos < σ.size x) (b : Byte) :
    σ.write entry x pos b = (σ.poke x pos b).map (fun σ' => (σ', .done)) := by
  cases entry with
  | index =>
      show σ.writeIndex x pos b = _
      rw [Pool.writeIndex, if_neg (not_not_intro hpos)]
      cases σ.poke x pos b <;> rfl
  | data =>
      show σ.writeData x pos b = _
      rw [Pool.writeData]
      cases σ.poke x pos b <;> rfl
  | begin =>
      show σ.writeBegin x pos b = _
      rw [Pool.writeBegin]
      cases σ.poke x pos b <;> rfl

/-- One byte of the content changes, the zeros behind it stay. -/
theorem Pool.filled_set {bs : List Byte} {capacity pos : Nat} {b : Byte} (hlt : pos < bs.length) :
    (Pool.filled bs capacity).take pos ++ [b] ++
        (Pool.filled bs capacity).drop (pos + [b].length) =
      Pool.filled (bs.set pos b) capacity := by
  rw [Pool.filled, Pool.filled, List.length_set, ← List.set_append_left _ _ hlt,
    List.set_eq_take_append_cons_drop, if_pos (by rw [List.length_append]; omega)]
  simp

namespace Models

variable {σ : Pool ι} {a : ι → List Byte} {x y : ι} {pos : Nat} {b : Byte}

/-- A variable with a byte has a live buffer. -/
theorem cell_of_lt (h : Models σ a) (hpos : pos < σ.size x) :
    σ.data.heap.cell (σ.data.holder x) = some (Pool.filled (a x) (σ.capacity x)) := by
  rcases (h.stored x).buffer with ⟨_, hcap⟩ | hcell
  · have := (h.stored x).size
    have := (h.stored x).fits
    omega
  · exact hcell

/-- Variables on one buffer have the same bytes and the same capacity. -/
theorem sharer (h : Models σ a) (hpos : pos < σ.size x)
    (hy : σ.data.holder y = σ.data.holder x) : a y = a x ∧ σ.capacity y = σ.capacity x := by
  have hcell := h.cell_of_lt hpos
  have hsize : σ.size y = σ.size x :=
    h.agree y x hy (by rw [hy]; exact Heap.ne_null _ hcell)
  have hcell' := h.cell_of_lt (x := y) (hsize ▸ hpos)
  rw [hy, hcell] at hcell'
  have hbuf := Option.some.inj hcell'
  constructor
  · rw [← (h.stored y).content, ← (h.stored x).content, Pool.content, Pool.content, hy, hsize]
  · rw [← Pool.length_filled (h.stored y).fits, ← Pool.length_filled (h.stored x).fits, hbuf]

/-- One write through any entry point changes that byte in every variable on
the buffer, and in no other. -/
theorem write_spec [Fintype ι] [DecidableEq ι] (h : Models σ a) (entry : Entry)
    (hpos : pos < σ.size x) (b : Byte) :
    ∃ σ', (byteArrays ι).exec σ (.write entry x pos b) = some (σ', .done) ∧
      Models σ' (fun y => if σ.data.holder y = σ.data.holder x then (a x).set pos b else a y) := by
  have hs := h.stored x
  have hlt : pos < (a x).length := hs.size ▸ hpos
  obtain ⟨h', hwrite, hh⟩ := writeAt_eq pos [b] (h.cell_of_lt hpos)
    (by rw [Pool.length_filled hs.fits]; exact (Nat.succ_le_of_lt hlt).trans hs.fits)
  rw [Pool.filled_set hlt] at hh
  refine ⟨{ σ with data := { σ.data with heap := h' } }, ?_, ?_, h.agree⟩
  · have hpoke : σ.poke x pos b = some { σ with data := { σ.data with heap := h' } } := by
      simp only [Pool.poke, hwrite, Option.bind_eq_bind, Option.bind_some]
      rfl
    show σ.write entry x pos b = _
    rw [Pool.write_eq entry hpos, hpoke]
    rfl
  · intro y
    dsimp only
    split
    · -- a sharer has the same bytes, and so the new ones
      rename_i hy
      obtain ⟨hbytes, hcap⟩ := h.sharer hpos hy
      refine ⟨?_, ?_, .inr ?_⟩
      · rw [List.length_set, ← hbytes]
        exact (h.stored y).size
      · rw [List.length_set, ← hbytes]
        exact (h.stored y).fits
      · show h'.cell (σ.data.holder y) = some (Pool.filled _ (σ.capacity y))
        rw [hh, hy, update_self, hcap]
    · rename_i hy
      refine ⟨(h.stored y).size, (h.stored y).fits, ?_⟩
      show _ ∨ h'.cell (σ.data.holder y) = _
      rw [hh, update_of_ne hy]
      exact (h.stored y).buffer

end Models

variable [Fintype ι] [DecidableEq ι]

/-- Any run with writes below the size keeps the pool in a state that holds
some lists. -/
theorem inBounds_models :
    ((byteArrays ι).toTSys InBounds).Invariant (fun σ => ∃ a, Models σ a) := by
  refine TSys.Inductive.invariant ⟨?_, ?_⟩
  · rintro σ rfl
    exact ⟨_, Models.empty⟩
  · rintro σ call σ' ⟨a, h⟩ ⟨hok, o, hexec⟩
    by_cases hw : ∃ entry x pos b, call = .write entry x pos b
    · obtain ⟨entry, x, pos, b, rfl⟩ := hw
      obtain ⟨σ'', hexec', h'⟩ := h.write_spec entry hok b
      rw [hexec] at hexec'
      cases hexec'
      exact ⟨_, h'⟩
    · have hok' : Allowed σ call := by
        cases call with
        | write entry x pos b => exact (hw ⟨entry, x, pos, b, rfl⟩).elim
        | _ => exact hok
      obtain ⟨σ'', hexec', h'⟩ := exec_models σ a call h hok'
      rw [hexec] at hexec'
      cases hexec'
      exact ⟨_, h'⟩

/-- **Writes are seen by sharers.** In every state a run reaches, a write
below the size through `operator[]`, `data` or `begin` leaves the content of
all other variables as it was if and only if nobody shares the buffer or the
byte does not change. -/
theorem write_isolated_iff (σ : Pool ι)
    (hσ : ((byteArrays ι).toTSys InBounds).Reachable σ) (entry : Entry) (x : ι) (pos : Nat)
    (hpos : pos < σ.size x) (b : Byte) :
    ∃ σ', (byteArrays ι).exec σ (.write entry x pos b) = some (σ', .done) ∧
      ((∀ y, y ≠ x → σ'.content y = σ.content y) ↔ Isolated σ x pos b) := by
  obtain ⟨a, h⟩ := inBounds_models σ hσ
  obtain ⟨σ', hexec, h'⟩ := h.write_spec entry hpos b
  have hlt : pos < (a x).length := (h.stored x).size ▸ hpos
  have hcontent : ∀ y, σ'.content y
      = if σ.data.holder y = σ.data.holder x then (a x).set pos b else σ.content y := by
    intro y
    rw [(h'.stored y).content, (h.stored y).content]
  refine ⟨σ', hexec, ?_, ?_⟩
  · intro hsame
    by_cases hshared : ∃ y, y ≠ x ∧ σ.data.holder y = σ.data.holder x
    · obtain ⟨y, hy, hholder⟩ := hshared
      have hset := hsame y hy
      rw [hcontent y, if_pos hholder, (h.stored y).content, (h.sharer hpos hholder).1] at hset
      refine .inr ?_
      rw [(h.stored x).content, ← hset, List.getElem?_set_self hlt]
    · refine .inl (fun y hy hholder => hshared ⟨y, hy, hholder⟩)
  · rintro (hown | hbyte) y hy
    · rw [hcontent y, if_neg (hown y hy)]
    · rw [hcontent y]
      split
      · rename_i hholder
        rw [(h.stored x).content] at hbyte
        rw [(h.stored y).content, (h.sharer hpos hholder).1]
        obtain ⟨_, hb⟩ := List.getElem?_eq_some_iff.mp hbyte
        rw [← hb, List.set_getElem_self]
      · rfl

/-- An array of its own. -/
theorem write_isolated_iff_constructed :
    ∃ σ σ' : Pool (Fin 2),
      (byteArrays (Fin 2)).exec .empty (.constructPtrLen 0 [65]) = some (σ, .done) ∧
      (byteArrays (Fin 2)).exec σ (.write .index 0 0 66) = some (σ', .done) ∧
      ((∀ y, y ≠ 0 → σ'.content y = σ.content y) ↔ Isolated σ 0 0 66) := by
  obtain ⟨σ, hexec, h⟩ := exec_models (ι := Fin 2) .empty _ (.constructPtrLen 0 [65])
    .empty trivial
  have hpos : 0 < σ.size 0 := by
    rw [(h.stored 0).size]
    decide
  have hstep : ((byteArrays (Fin 2)).toTSys InBounds).step .empty (.constructPtrLen 0 [65]) σ :=
    ⟨trivial, .done, hexec⟩
  obtain ⟨σ', hwrite, hiff⟩ :=
    write_isolated_iff σ (.step (.init rfl) hstep) .index 0 0 hpos 66
  exact ⟨σ, σ', hexec, hwrite, hiff⟩

/-- A copy's write is read through the original, whatever the entry point. -/
theorem copy_write_changes_original :
    ((byteArrays (Fin 2)).run .empty
        [.constructPtrLen 0 [65], .copyConstruct 1 0]).map (fun r => r.1.content 0)
      = some [65] ∧
    [Entry.index, .data, .begin].map (fun entry =>
        ((byteArrays (Fin 2)).run .empty
          [.constructPtrLen 0 [65], .copyConstruct 1 0, .write entry 1 0 66]).map
          (fun r => r.1.content 0))
      = [some [66], some [66], some [66]] := by
  decide +kernel

/-- With isolated writes the arrays are values: the pool refines plain lists,
where a write changes one list. -/
theorem isolated_writes_refine_lists :
    (byteArrays ι).Refines IsolatedWrites (lists ι) Models where
  start := Models.empty
  exec σ a call h hok := by
    cases call with
    | write entry x pos b =>
        obtain ⟨hpos, hisolated⟩ := hok
        obtain ⟨σ', hexec, h'⟩ := h.write_spec entry hpos b
        refine ⟨σ', hexec, ?_⟩
        convert h' using 1
        funext y
        by_cases hy : y = x
        · rw [hy, if_pos rfl]
          exact update_self ..
        · show update a x ((a x).set pos b) y = _
          rw [update_of_ne hy]
          split
          · rename_i hholder
            rcases hisolated with hown | hbyte
            · exact absurd hholder (hown y hy)
            · rw [(h.stored x).content] at hbyte
              obtain ⟨_, hb⟩ := List.getElem?_eq_some_iff.mp hbyte
              rw [(h.sharer hpos hholder).1, ← hb, List.set_getElem_self]
          · rfl
    | _ => exact exec_models σ a _ h hok

/-- **Copy on write, where it holds.** A run whose writes are all isolated
answers as on plain lists, and every variable has the bytes of its list. -/
theorem isolated_runs_are_lists (calls : List (Call ι))
    (hcalls : (byteArrays ι).Obeys IsolatedWrites (byteArrays ι).start calls) :
    ∃ σ, (byteArrays ι).run (byteArrays ι).start calls
        = some (σ, ((lists ι).run (lists ι).start calls).2) ∧
      ∀ x, σ.content x = ((lists ι).run (lists ι).start calls).1 x := by
  obtain ⟨σ, hrun, hmodels⟩ := isolated_writes_refine_lists.run calls hcalls
  exact ⟨σ, hrun, fun x => (hmodels.stored x).content⟩

end LearnSpace.KvStore
