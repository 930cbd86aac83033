import LearnSpace.ByteArrays.Capacity

/-!
# When the copies agree

The copies are in one state after each call as long as no call meets one of
their differences: the constructor from a pointer and a length, a buffer of
length 0, a buffer that is too small and not shared, and an insertion whose tail
the copies move to different places.
-/

namespace LearnSpace.ByteArrays

open Keel Function KvStore

variable {ι : Type} [Fintype ι] [DecidableEq ι] {σ : Pool ι} {x : ι}

/-- An insertion of `len` bytes at `pos` that the copies do alike. -/
structure InsertAgrees (σ : Pool ι) (x : ι) (pos len : Nat) : Prop where
  /-- there is no tail, or the two places it is moved to are one -/
  tail : pos = σ.size x ∨ len = σ.size x
  /-- a buffer that is not shared is large enough -/
  room : σ.data.unique x = true → σ.size x + len ≤ σ.capacity x
  /-- one that is shared or missing is replaced by one that is not empty -/
  replaced : σ.data.unique x = true ∨ 0 < σ.capacity x + len

/-- The calls that the copies do alike. -/
def Agreed (σ : Pool ι) : Call ι → Prop
  | .constructCapacity _ capacity => 0 < capacity
  | .constructPtrLen _ _ => False
  | .constructStr _ str => 0 < strlen str
  | .append x str => InsertAgrees σ x (σ.size x) (str.len σ)
  | .insert x pos str => pos ≤ σ.size x → InsertAgrees σ x pos (str.len σ)
  | .prepend x str => InsertAgrees σ x 0 (str.len σ)
  | .remove x pos _ => pos ≤ σ.size x → σ.data.unique x = true ∨ 0 < σ.capacity x
  | .detach x => σ.data.unique x = true ∨ 0 < σ.capacity x
  | .squeeze x => 0 < σ.size x
  | _ => True

namespace Copy

omit [Fintype ι] in
/-- Without a tail, or with one place for it, the copies move the same bytes. -/
theorem moveIn_eq (k : Copy) {pos len : Nat} (src : Source)
    (htail : pos = σ.size x ∨ len = σ.size x) :
    k.moveIn σ x pos src len = kvStore.moveIn σ x pos src len := by
  rcases htail with rfl | rfl
  · simp only [moveIn, Nat.sub_self, readAt, writeAt, if_true, Option.bind_eq_bind,
      Option.bind_some]
  · cases k <;> rfl

/-- The insertion, at a position inside the array. -/
theorem insertElement_agree (hσ : ∀ y, Sized σ y) {pos : Nat} (str : Arg ι)
    (hpos : pos ≤ σ.size x) (h : InsertAgrees σ x pos (str.len σ)) :
    ∃ σ', (∀ k : Copy,
        k.insertElement σ x pos (str.source σ) (str.len σ) = some (σ', .done)) ∧
      ∀ y, Sized σ' y := by
  obtain ⟨σ₁, hroom, hr, hkeep⟩ := makeRoom_rebuilt hσ h.room h.replaced
  have hle := le_grown (hσ x).fits (str.len σ)
  have hplace : σ.size x + (σ.size x - pos) ≤ grown (σ.capacity x) (σ.size x) (str.len σ) := by
    rcases h.tail with heq | heq <;> omega
  obtain ⟨σ', hmove, hr'⟩ := moveIn_rebuilt kvStore hr hpos hle hplace
    (fun _ _ hb hh => source_read hσ hr hkeep (by omega) str hb hh)
  refine ⟨σ', fun k => ?_, hr'.sized hle hσ⟩
  have htail : pos = σ₁.size x ∨ str.len σ = σ₁.size x := by
    rw [hr.size]
    exact h.tail
  rw [insertElement, if_neg (not_not_intro hpos), hroom]
  simp only [Result.andThen, k.moveIn_eq _ htail, hmove, Option.map_some]

theorem reomveElement_agree (hσ : ∀ y, Sized σ y) {pos : Nat} (len : Nat)
    (hpos : pos ≤ σ.size x) (h : σ.data.unique x = true ∨ 0 < σ.capacity x) :
    ∃ σ', (∀ k : Copy, k.reomveElement σ x pos len = some (σ', .done)) ∧
      ∀ y, Sized σ' y := by
  obtain ⟨σ₁, hdetach, hr⟩ := detach_rebuilt hσ h
  obtain ⟨σ', m, hmove, hm, hr'⟩ := moveOut_rebuilt len hr (hσ x).fits hpos
  refine ⟨σ', fun k => ?_, hr'.sized hm hσ⟩
  rw [reomveElement, if_neg (not_not_intro hpos), hdetach]
  simp only [Result.andThen, hmove, Option.map_some]

/-- A new buffer of a capacity that is not 0. -/
theorem constructCapacity_agree (hσ : ∀ y, Sized σ y) (capacity : Nat) (h : 0 < capacity) :
    ∃ σ', (∀ k : Copy, k.constructCapacity σ x capacity = some (σ', .done)) ∧
      Rebuilt x 0 capacity σ σ' :=
  resetBuffer_rebuilt hσ (.inl rfl) (Nat.zero_le _) h

theorem constructStr_agree (hσ : ∀ y, Sized σ y) {str : List Byte} (h : 0 < strlen str) :
    ∃ σ', (∀ k : Copy, k.constructStr σ x str = some (σ', .done)) ∧ ∀ y, Sized σ' y := by
  obtain ⟨σ₁, hconstruct, hr⟩ := constructCapacity_agree (x := x) hσ _ h
  have hsized := hr.sized (Nat.zero_le _) hσ
  have hinsert : InsertAgrees σ₁ x 0 (strlen str) := by
    refine ⟨.inl hr.size.symm, fun _ => ?_, .inl hr.own⟩
    rw [hr.size, hr.capacity]
    omega
  obtain ⟨σ', hins, hsized'⟩ := insertElement_agree hsized (.cstr str)
    (Nat.zero_le _) hinsert
  refine ⟨σ', fun k => ?_, hsized'⟩
  rw [constructStr, hconstruct]
  exact hins k

end Copy

/-- One call: the copies answer alike, and in one state. -/
theorem call_agree (hσ : ∀ y, Sized σ y) {c : Call ι} (h : Agreed σ c) :
    ∃ σ' answer, (∀ k : Copy, k.call σ c = .ok (σ', answer)) ∧ ∀ y, Sized σ' y := by
  cases c with
  | construct x =>
      obtain ⟨σ', heq, hr⟩ := Copy.constructCapacity_agree (x := x) hσ
        defInitCapacity (by decide)
      refine ⟨σ', .done, fun k => ?_, hr.sized (Nat.zero_le _) hσ⟩
      rw [Copy.call, heq]
      rfl
  | constructCapacity x capacity =>
      obtain ⟨σ', heq, hr⟩ := Copy.constructCapacity_agree (x := x) hσ _ h
      refine ⟨σ', .done, fun k => ?_, hr.sized (Nat.zero_le _) hσ⟩
      rw [Copy.call, heq]
      rfl
  | constructPtrLen x str => exact absurd h id
  | constructStr x str =>
      obtain ⟨σ', heq, hσ'⟩ := Copy.constructStr_agree (x := x) hσ h
      refine ⟨σ', .done, fun k => ?_, hσ'⟩
      rw [Copy.call, heq]
      rfl
  | copyConstruct x other => exact ⟨_, _, fun _ => rfl, .copyFrom hσ x other⟩
  | moveConstruct x other => exact ⟨_, _, fun _ => rfl, .moveFrom hσ x other⟩
  | copyAssign x other => exact ⟨_, _, fun _ => rfl, .copyFrom hσ x other⟩
  | moveAssign x other => exact ⟨_, _, fun _ => rfl, .moveFrom hσ x other⟩
  | destroy x => exact ⟨_, _, fun _ => rfl, .release hσ x⟩
  | append x str =>
      obtain ⟨σ', heq, hσ'⟩ := Copy.insertElement_agree hσ str (Nat.le_refl _) h
      refine ⟨σ', .done, fun k => ?_, hσ'⟩
      rw [Copy.call, Copy.append, heq]
      rfl
  | insert x pos str =>
      by_cases hpos : pos ≤ σ.size x
      · obtain ⟨σ', heq, hσ'⟩ := Copy.insertElement_agree hσ str hpos (h hpos)
        refine ⟨σ', .done, fun k => ?_, hσ'⟩
        rw [Copy.call, Copy.insert, heq]
        rfl
      · refine ⟨σ, .outOfRange, fun k => ?_, hσ⟩
        rw [Copy.call, Copy.insert, Copy.insertElement, if_pos hpos]
        rfl
  | prepend x str =>
      obtain ⟨σ', heq, hσ'⟩ := Copy.insertElement_agree hσ str (Nat.zero_le _) h
      refine ⟨σ', .done, fun k => ?_, hσ'⟩
      rw [Copy.call, Copy.prepend, heq]
      rfl
  | remove x pos len =>
      by_cases hpos : pos ≤ σ.size x
      · obtain ⟨σ', heq, hσ'⟩ := Copy.reomveElement_agree hσ len hpos (h hpos)
        refine ⟨σ', .done, fun k => ?_, hσ'⟩
        rw [Copy.call, heq]
        rfl
      · refine ⟨σ, .outOfRange, fun k => ?_, hσ⟩
        rw [Copy.call, Copy.reomveElement, if_pos hpos]
        rfl
  | detach x =>
      obtain ⟨σ', heq, hr⟩ := Copy.detach_rebuilt hσ h
      refine ⟨σ', .done, fun k => ?_, hr.sized (hσ x).fits hσ⟩
      rw [Copy.call, heq]
      rfl
  | clear x =>
      obtain ⟨σ', heq, hr⟩ := Copy.constructCapacity_agree (x := x) hσ
        defInitCapacity (by decide)
      refine ⟨σ', .done, fun k => ?_, hr.sized (Nat.zero_le _) hσ⟩
      have hclear : k.clear σ x = some (σ', .done) := heq k
      rw [Copy.call, hclear]
      rfl
  | squeeze x =>
      obtain ⟨σ', heq, hr⟩ := Copy.resetBuffer_rebuilt (x := x) hσ (.inr rfl) (Nat.le_refl _) h
      simp only [update_eq_self] at heq
      refine ⟨σ', .done, fun k => ?_, hr.sized (Nat.le_refl _) hσ⟩
      rw [Copy.call, Copy.squeeze, heq]
      rfl
  | at' x pos =>
      by_cases hpos : pos < σ.size x
      · have hle := (hσ x).fits
        obtain ⟨b, hb, hlength⟩ := (hσ x).cell_of_pos (by omega)
        obtain ⟨d, hread, -⟩ := readAt_length pos 1 hb (by omega)
        refine ⟨σ, .byte (d.headD 0), fun k => ?_, hσ⟩
        rw [Copy.call, Copy.at', if_neg (not_not_intro hpos), hread]
        rfl
      · refine ⟨σ, .outOfRange, fun k => ?_, hσ⟩
        rw [Copy.call, Copy.at', if_pos hpos]
        rfl

/-- A run, by induction on its calls: the copies stay in one state. -/
theorem run_agree (is : List (Call ι)) (hσ : ∀ y, Sized σ y)
    (hobeys : (copies .kvStore ι).Obeys Agreed σ is) :
    ∃ r, ∀ k, (copies k ι).run σ is = some r := by
  induction is generalizing σ with
  | nil => exact ⟨_, fun _ => rfl⟩
  | cons c is ih =>
      obtain ⟨σ', answer, hcall, hσ'⟩ := call_agree hσ hobeys.1
      have hexec : ∀ k, (copies k ι).exec σ c = some (σ', ⟨answer, σ'.size, σ'.content⟩) := by
        intro k
        simp only [copies, hcall]
      obtain ⟨r, hr⟩ := ih hσ' (hobeys.2 _ _ (hexec _))
      refine ⟨(r.1, ⟨answer, σ'.size, σ'.content⟩ :: r.2), fun k => ?_⟩
      rw [Machine.run_cons is (hexec k), hr, Option.map_some]

/-- **The copies agree** on every run whose calls avoid their differences: no
call of any of them reaches outside a buffer, and the answers, the sizes and the
contents are the same behind each call. -/
theorem copies_agree (is : List (Call ι))
    (hobeys : (copies .kvStore ι).Obeys Agreed .empty is) :
    ∃ r, ∀ k, (copies k ι).run .empty is = some r :=
  run_agree is Sized.empty hobeys

/-- `CMByteArray a(4); a.append("AB", 2);` -/
theorem copies_agree_append :
    ∃ r, ∀ k, (copies k (Fin 1)).run .empty
      [.constructCapacity 0 4, .append 0 (.ptr [65, 66])] = some r := by
  refine copies_agree _ ⟨Nat.zero_lt_succ 3, fun σ o h => ⟨?_, fun _ _ _ => trivial⟩⟩
  cases h
  exact ⟨.inl rfl, fun _ => by decide, .inr (by decide)⟩

/-- `CMByteArray a(10); a.append("AB", 2); a.prepend("X", 1);` gives `"XBA"` in
two of the copies and `"XAB"` in the other. -/
theorem prepend_tells_copies_apart :
    ¬ ∃ r, ∀ k, (copies k (Fin 1)).run .empty
      [.constructCapacity 0 10, .append 0 (.ptr [65, 66]), .prepend 0 (.ptr [88])] = some r := by
  rintro ⟨r, hr⟩
  have hkv : r.1.content 0 = [88, 66, 65] := by
    have := congrArg (Option.map fun r => r.1.content 0) (hr .kvStore)
    rw [Option.map_some] at this
    exact Option.some.inj (this.symm.trans (by decide +kernel))
  have htcp : r.1.content 0 = [88, 65, 66] := by
    have := congrArg (Option.map fun r => r.1.content 0) (hr .tcpServer)
    rw [Option.map_some] at this
    exact Option.some.inj (this.symm.trans (by decide +kernel))
  rw [hkv] at htcp
  revert htcp
  decide

end LearnSpace.ByteArrays
