import LearnSpace.KvStore.ByteArrayValue

/-!
# The pool of byte arrays refines plain lists

`lists` is what the methods mean: each variable is a list of bytes of its own.
`Models` ties a pool to such lists: every variable holds its bytes, and two
variables on one buffer agree about the size. Every call of the pool except
a write through an element and an append of a variable to itself keeps them
tied, and so does every run.
-/

namespace LearnSpace.KvStore

open Keel Function

variable {ι : Type}

/-- The calls on plain lists. -/
def lists (ι : Type) [DecidableEq ι] : Total (ι → List Byte) (Call ι) Outcome where
  start _ := []
  next
    | a, .construct x => (update a x [], .done)
    | a, .constructCapacity x _ => (update a x [], .done)
    | a, .constructPtrLen x bytes => (update a x bytes, .done)
    | a, .constructStr x str => (update a x (str.takeWhile (· ≠ 0)), .done)
    | a, .copyConstruct x other => (update a x (a other), .done)
    | a, .moveConstruct x other => (update (update a x (a other)) other [], .done)
    | a, .copyAssign x other => (update a x (a other), .done)
    | a, .moveAssign x other => (update (update a x (a other)) other [], .done)
    | a, .destroy x => (update a x [], .done)
    | a, .appendBytes x bytes => (update a x (a x ++ bytes), .done)
    | a, .appendStr x str => (update a x (a x ++ str.takeWhile (· ≠ 0)), .done)
    | a, .append x str => (update a x (a x ++ a str), .done)
    | a, .remove x pos len =>
      if pos ≤ (a x).length then
        (update a x ((a x).take pos ++ (a x).drop (pos + len)), .done)
      else (a, .outOfRange)
    | a, .clear x => (update a x [], .done)
    | a, .squeeze _ => (a, .done)
    | a, .detach _ => (a, .done)
    | a, .write _ x pos b => (update a x ((a x).set pos b), .done)

/-- No write through an element, and no append of a variable's own bytes. -/
def Allowed (σ : Pool ι) : Call ι → Prop
  | .append x str => str ≠ x ∨ σ.size str = 0
  | .write _ _ _ _ => False
  | _ => True

/-- The pool holds the lists `a`. -/
structure Models (σ : Pool ι) (a : ι → List Byte) : Prop where
  stored : ∀ x, σ.Stored x (a x)
  agree : ∀ x y, σ.data.holder x = σ.data.holder y → σ.data.holder x ≠ null →
    σ.size x = σ.size y

namespace Models

theorem others {σ : Pool ι} {a : ι → List Byte} (h : Models σ a) (x : ι) : σ.Others x :=
  fun y _ => ⟨a y, h.stored y⟩

theorem empty : Models (Pool.empty : Pool ι) (fun _ => []) where
  stored _ := ⟨rfl, Nat.le_refl _, .inl ⟨rfl, rfl⟩⟩
  agree _ _ _ _ := rfl

variable [Fintype ι] [DecidableEq ι]
variable {σ σ' : Pool ι} {a : ι → List Byte} {x other : ι} {bs : List Byte}

/-- A method that leaves `x` alone with a buffer of its own. -/
theorem makes {n : Nat} (h : Models σ a) (hm : Pool.Makes x bs n σ σ') :
    Models σ' (update a x bs) where
  stored y := by
    by_cases hy : y = x
    · rw [hy, update_self]
      exact hm.stored
    · rw [update_of_ne hy]
      exact hm.frame.stored hy (h.stored y)
  agree y z hyz hne := by
    have hown := (Shared.unique_iff.mp hm.own).2
    by_cases hy : y = x
    · by_cases hz : z = x
      · rw [hy, hz]
      · exact absurd (hyz.symm.trans (by rw [hy])) (hown z hz)
    · by_cases hz : z = x
      · exact absurd (hyz.trans (by rw [hz])) (hown y hy)
      · rw [hm.frame.holder y hy] at hyz hne
        rw [hm.frame.holder z hz] at hyz
        rw [hm.frame.size y hy, hm.frame.size z hz]
        exact h.agree y z hyz hne

/-- Letting go of a buffer. -/
theorem release (h : Models σ a) (x : ι) : Models (σ.release x) (update a x []) where
  stored y := by
    by_cases hy : y = x
    · rw [hy, update_self]
      exact ⟨update_self .., Nat.zero_le _,
        .inl ⟨by rw [Pool.release, Shared.assign_holder, update_self], update_self ..⟩⟩
    · rw [update_of_ne hy]
      exact (Pool.Frame.assign x σ null 0 0).stored hy (h.stored y)
  agree y z hyz hne := by
    have hf : Pool.Frame x σ (σ.release x) := .assign x σ null 0 0
    have hx : (σ.release x).data.holder x = null := by
      rw [Pool.release, Shared.assign_holder, update_self]
    have hy : y ≠ x := by
      rintro rfl
      exact hne hx
    have hz : z ≠ x := by
      rintro rfl
      exact hne (hyz.trans hx)
    rw [hf.holder y hy] at hyz hne
    rw [hf.holder z hz] at hyz
    rw [hf.size y hy, hf.size z hz]
    exact h.agree y z hyz hne

/-- Sharing the buffer of another variable. -/
theorem copyFrom (h : Models σ a) (x other : ι) :
    Models (σ.copyFrom x other) (update a x (a other)) := by
  have hf : Pool.Frame x σ (σ.copyFrom x other) := .assign x σ _ _ _
  have hs := h.stored other
  have hholder : (σ.copyFrom x other).data.holder x = σ.data.holder other := by
    rw [Pool.copyFrom, Shared.assign_holder, update_self]
  have hsize : (σ.copyFrom x other).size x = σ.size other := update_self ..
  have hcap : (σ.copyFrom x other).capacity x = σ.capacity other := update_self ..
  -- every variable is on the buffer, and has the size, of one of the old pool
  have hsource : ∀ y, ∃ z, (σ.copyFrom x other).data.holder y = σ.data.holder z ∧
      (σ.copyFrom x other).size y = σ.size z := by
    intro y
    by_cases hy : y = x
    · exact ⟨other, by rw [hy, hholder], by rw [hy, hsize]⟩
    · exact ⟨y, hf.holder y hy, hf.size y hy⟩
  constructor
  · intro y
    by_cases hy : y = x
    · rw [hy, update_self]
      refine ⟨hsize.trans hs.size, hs.fits.trans_eq hcap.symm, ?_⟩
      rw [hholder, hcap]
      refine hs.buffer.imp id (fun hcell => ?_)
      rw [Pool.copyFrom, Shared.assign_cell_of_held (y := x)
        (by rw [Shared.assign_holder, update_self]) (σ.data.heap.ne_null hcell), hcell]
    · rw [update_of_ne hy]
      exact hf.stored hy (h.stored y)
  · intro y z hyz hne
    obtain ⟨y', hy, hsy⟩ := hsource y
    obtain ⟨z', hz, hsz⟩ := hsource z
    rw [hsy, hsz]
    exact h.agree y' z' (by rw [← hy, ← hz, hyz]) (by rw [← hy]; exact hne)

theorem moveFrom (h : Models σ a) (x other : ι) :
    Models (σ.moveFrom x other) (update (update a x (a other)) other []) :=
  (h.copyFrom x other).release other

end Models

variable [Fintype ι] [DecidableEq ι]

/-- One call: it never leaves a buffer, it answers what the call on the lists
answers, and the pool holds the lists after it. -/
theorem exec_models (σ : Pool ι) (a : ι → List Byte) (call : Call ι) (h : Models σ a)
    (hok : Allowed σ call) :
    ∃ σ', (byteArrays ι).exec σ call = some (σ', ((lists ι).next a call).2) ∧
      Models σ' ((lists ι).next a call).1 := by
  cases call with
  | construct x =>
      obtain ⟨σ', hexec, hm⟩ := Pool.constructCapacity_spec (h.others x) defInitCapacity
      exact ⟨σ', congrArg (Option.map _) hexec, h.makes hm⟩
  | constructCapacity x capacity =>
      obtain ⟨σ', hexec, hm⟩ := Pool.constructCapacity_spec (h.others x) capacity
      exact ⟨σ', congrArg (Option.map _) hexec, h.makes hm⟩
  | constructPtrLen x bytes =>
      obtain ⟨σ', hexec, hm⟩ := Pool.construct_insert_spec (h.others x) (bytes.length + 1)
        (read_bytes bytes)
      exact ⟨σ', hexec, h.makes hm⟩
  | constructStr x str =>
      obtain ⟨σ', hexec, hm⟩ := Pool.construct_insert_spec (h.others x) (strlen str)
        (read_str str)
      exact ⟨σ', hexec, h.makes hm⟩
  | copyConstruct x other => exact ⟨_, rfl, h.copyFrom x other⟩
  | moveConstruct x other => exact ⟨_, rfl, h.moveFrom x other⟩
  | copyAssign x other => exact ⟨_, rfl, h.copyFrom x other⟩
  | moveAssign x other => exact ⟨_, rfl, h.moveFrom x other⟩
  | destroy x => exact ⟨_, rfl, h.release x⟩
  | appendBytes x bytes =>
      obtain ⟨σ', hexec, hm⟩ := Pool.insertElement_spec (h.others x) (h.stored x)
        (fun _ _ => read_bytes bytes _)
      exact ⟨σ', hexec, h.makes hm⟩
  | appendStr x str =>
      obtain ⟨σ', hexec, hm⟩ := Pool.insertElement_spec (h.others x) (h.stored x)
        (fun _ _ => read_str str _)
      exact ⟨σ', hexec, h.makes hm⟩
  | append x str =>
      obtain ⟨σ', hexec, hm⟩ := Pool.append_spec (h.others x) (h.stored x) (h.stored str) hok
      exact ⟨σ', hexec, h.makes hm⟩
  | remove x pos len =>
      have hsize := (h.stored x).size
      by_cases hpos : pos ≤ (a x).length
      · obtain ⟨σ', hexec, hm⟩ :=
          Pool.reomveElement_spec (h.others x) (h.stored x) len hpos
        refine ⟨σ', ?_, ?_⟩
        · simp only [lists, if_pos hpos]
          exact hexec
        · simp only [lists, if_pos hpos]
          exact h.makes hm
      · refine ⟨σ, ?_, ?_⟩
        · simp only [lists, if_neg hpos]
          show σ.reomveElement x pos len = _
          rw [Pool.reomveElement, if_pos (by rw [hsize]; exact hpos)]
          rfl
        · simp only [lists, if_neg hpos]
          exact h
  | clear x =>
      obtain ⟨σ', hexec, hm⟩ := Pool.clear_spec (h.others x)
      exact ⟨σ', congrArg (Option.map _) hexec, h.makes hm⟩
  | squeeze x =>
      obtain ⟨σ', hexec, hm⟩ := Pool.squeeze_spec (h.others x) (h.stored x)
      refine ⟨σ', congrArg (Option.map _) hexec, ?_⟩
      have := h.makes hm
      rwa [update_eq_self] at this
  | detach x =>
      obtain ⟨σ', hexec, hm⟩ := Pool.detach_spec (h.others x) (h.stored x)
      refine ⟨σ', congrArg (Option.map _) hexec, ?_⟩
      have := h.makes hm
      rwa [update_eq_self] at this
  | write entry x pos b => exact hok.elim

theorem refines_lists : (byteArrays ι).Refines Allowed (lists ι) Models where
  start := Models.empty
  exec := exec_models

/-- **Value semantics.** A run of the pool never reads or writes outside a
live buffer and answers as the same run on plain lists does. After it every
variable has the bytes of its list, in a buffer of the length of its capacity
that is zero behind them (or it has neither buffer nor capacity). -/
theorem byteArrays_are_lists (calls : List (Call ι))
    (hcalls : (byteArrays ι).Obeys Allowed (byteArrays ι).start calls) :
    ∃ σ, (byteArrays ι).run (byteArrays ι).start calls
        = some (σ, ((lists ι).run (lists ι).start calls).2) ∧
      ∀ x, σ.content x = ((lists ι).run (lists ι).start calls).1 x ∧
        σ.Stored x (((lists ι).run (lists ι).start calls).1 x) := by
  obtain ⟨σ, hrun, hmodels⟩ := refines_lists.run calls hcalls
  exact ⟨σ, hrun, fun x => ⟨(hmodels.stored x).content, hmodels.stored x⟩⟩

/-- A copy that is appended to, and a removal that is clipped. -/
theorem byteArrays_are_lists_copy_append_remove :
    ∃ σ, (byteArrays (Fin 2)).run (byteArrays (Fin 2)).start
        [.constructPtrLen 0 [71, 101, 116], .copyConstruct 1 0, .append 1 0, .remove 0 1 9]
        = some (σ, [.done, .done, .done, .done]) ∧
      σ.content 0 = [71] ∧ σ.content 1 = [71, 101, 116, 71, 101, 116] := by
  obtain ⟨σ, hrun, hlists⟩ := byteArrays_are_lists (ι := Fin 2)
    [.constructPtrLen 0 [71, 101, 116], .copyConstruct 1 0, .append 1 0, .remove 0 1 9]
    ⟨trivial, fun _ _ _ => ⟨trivial, fun _ _ _ => ⟨.inl (by decide), fun _ _ _ =>
      ⟨trivial, fun _ _ _ => trivial⟩⟩⟩⟩
  exact ⟨σ, hrun, (hlists 0).1.trans (by decide), (hlists 1).1.trans (by decide)⟩

end LearnSpace.KvStore
