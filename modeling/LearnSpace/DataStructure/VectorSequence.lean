import Mathlib.Algebra.Group.Nat.Defs
import LearnSpace.DataStructure.Vector

/-!
# The vector as a sequence

`Rep h v ts` says that `v` holds the sequence `ts` at the front of its array. Each method
keeps that for the sequence it should make, and leaves all arrays alone but the vector's
own (`Becomes`). Positions beyond the end, among them the wrapped one `removeLast` passes
on for an empty vector, fail the first guard of the methods.
-/

namespace LearnSpace.DataStructure.Vector

open Keel Function

variable {T : Type} {h h' : Arrays T} {v : Vector} {ts us : List T}

/-- `v` holds the sequence `ts`. -/
structure Rep (h : Arrays T) (v : Vector) (ts : List T) : Prop where
  begins : h.Begins v.element v.capacity.toNat ts
  counted : v.size.toNat = ts.length
  bounded : ts.length ≤ maxSize.toNat
  step : v.step = stepUint

/-- What a method makes of `v`: a vector that holds `us`, with no array touched that is
not the vector's. -/
structure Becomes (h : Arrays T) (v : Vector) (σ : State T) (us : List T) : Prop where
  rep : Rep σ.1 σ.2 us
  exchange : Heap.Exchange h σ.1 (Arrays.cells v.element) (Arrays.cells σ.2.element)

namespace Rep

theorem size_le_capacity (r : Rep h v ts) : v.size ≤ v.capacity := by
  rw [UInt32.le_iff_toNat_le, r.counted]
  exact r.begins.length_le

theorem congr (r : Rep h v ts)
    (hcell : ∀ q ∈ Arrays.cells v.element, h'.cell q = h.cell q) : Rep h' v ts :=
  { r with begins := r.begins.congr hcell }

/-- A method that changes nothing. -/
theorem unchanged (r : Rep h v ts) : Becomes h v (h, v) ts := ⟨r, .refl h _⟩

end Rep

/-! ## The array of a vector -/

theorem freeMemory_spec {n : Nat} (s : h.Begins v.element n ts) :
    ∃ h', v.freeMemory h = some (h', { v with element := null }) ∧
      Heap.Exchange h h' (Arrays.cells v.element) [] := by
  by_cases hnull : v.element = null
  · refine ⟨h, ?_, ?_⟩
    · rw [freeMemory, if_neg (not_not_intro hnull), ← hnull]
      rfl
    · rw [hnull, Arrays.cells_null]
      exact .refl h []
  · obtain ⟨h', hfree, hx⟩ := s.free hnull
    refine ⟨h', ?_, hx⟩
    rw [freeMemory, if_pos hnull, hfree]
    rfl

theorem clear_spec {n : Nat} (s : h.Begins v.element n ts) :
    ∃ h', v.clear h = some (h', { element := null, size := 0, step := stepUint, capacity := 0 }) ∧
      Heap.Exchange h h' (Arrays.cells v.element) [] := by
  obtain ⟨h', hfree, hx⟩ := freeMemory_spec s
  refine ⟨h', ?_, hx⟩
  rw [clear, hfree]
  rfl

/-- A vector without an array, as `clear` and a move leave it. -/
theorem rep_null (h : Arrays T) :
    Rep h { element := null, size := 0, step := stepUint, capacity := 0 } [] where
  begins := Arrays.begins_null h
  counted := rfl
  bounded := Nat.zero_le _
  step := rfl

theorem stepUint_toNat : stepUint.toNat = 10 := rfl

/-- The capacity the growth code asks for. -/
def grownCapacity (v : Vector) : UInt32 :=
  if v.capacity + v.step > maxSize then maxSize else v.capacity + v.step

/-- Where it suffices for the elements, the growth code moves them to an array of that
capacity. -/
theorem grow_begins {n : Nat} (s : h.Begins v.element n ts) (hcount : v.size.toNat = ts.length)
    (hroom : ts.length ≤ v.grownCapacity.toNat) :
    ∃ h' p, v.grow h = some (h', { v with element := p, capacity := v.grownCapacity }) ∧
      h'.Begins p v.grownCapacity.toNat ts ∧
      Heap.Exchange h h' (Arrays.cells v.element) (Arrays.cells p) := by
  obtain ⟨h1, hmove, hnew, hx1⟩ := s.copy hroom
  rw [← hcount] at hmove
  -- the old array is still there, and is another one
  have hold : ∀ q ∈ Arrays.cells v.element, q ∉ Arrays.cells (h.new _).1 ∧ h1.cell q = h.cell q :=
    fun q hq => hx1.other (s.cells_live q hq) List.not_mem_nil
  obtain ⟨h2, hfree, hx2⟩ := freeMemory_spec (s.congr (fun q hq => (hold q hq).2))
  have hkeep : ∀ q ∈ Arrays.cells (h.new _).1, h2.cell q = h1.cell q :=
    fun q hq => hx2.frame q (fun hq' => (hold q hq').1 hq) List.not_mem_nil
  have hx := hx1.append hx2
  rw [List.nil_append, List.append_nil] at hx
  refine ⟨h2, (h.new v.grownCapacity.toNat).1, ?_, hnew.congr hkeep, hx⟩
  rw [grownCapacity] at hmove
  simp only [grow, hmove, hfree, grownCapacity, Option.bind_eq_bind, Option.bind_some,
    Option.pure_def]

theorem grownCapacity_le (v : Vector) : v.grownCapacity ≤ maxSize := by
  rw [grownCapacity]
  split
  · exact UInt32.le_refl _
  · rename_i hle
    exact UInt32.not_lt.mp hle

/-- A capacity below the bound grows by a step that is not zero and does not make the sum
wrap. -/
theorem lt_grownCapacity_iff (hlt : v.capacity < maxSize) :
    v.capacity.toNat < v.grownCapacity.toNat ↔
      0 < v.step ∧ v.capacity.toNat + v.step.toNat < 2 ^ 32 := by
  have hlt' : v.capacity.toNat < maxSize.toNat := UInt32.lt_iff_toNat_lt.mp hlt
  have hstep : (0 : UInt32) < v.step ↔ 0 < v.step.toNat := by
    rw [UInt32.lt_iff_toNat_lt]
    rfl
  have hsum := UInt32.toNat_add v.capacity v.step
  have hbound := UInt32.toNat_lt v.step
  rw [grownCapacity, hstep]
  rw [maxSize_toNat] at hlt'
  split
  · rename_i hover
    have hover' : maxSize.toNat < (v.capacity + v.step).toNat := UInt32.lt_iff_toNat_lt.mp hover
    rw [maxSize_toNat] at hover' ⊢
    omega
  · omega

/-- A full vector grows by at least one element. -/
theorem grow_spec (r : Rep h v ts) (hfull : v.capacity.toNat = ts.length)
    (hroom : ts.length < maxSize.toNat) :
    ∃ σ, v.grow h = some σ ∧ σ.2.size = v.size ∧ ts.length < σ.2.capacity.toNat ∧
      Becomes h v σ ts := by
  have hlt : v.capacity < maxSize := by
    rw [UInt32.lt_iff_toNat_lt, hfull]
    exact hroom
  have hgrown : v.capacity.toNat < v.grownCapacity.toNat := by
    rw [lt_grownCapacity_iff hlt, r.step, stepUint_toNat, hfull]
    rw [maxSize_toNat] at hroom
    exact ⟨by decide, by omega⟩
  rw [hfull] at hgrown
  obtain ⟨h', p, hgrow, hbegins, hx⟩ := grow_begins r.begins r.counted (Nat.le_of_lt hgrown)
  exact ⟨(h', _), hgrow, rfl, hgrown, ⟨hbegins, r.counted, r.bounded, r.step⟩, hx⟩

/-! ## What the methods do to the sequence -/

theorem append_spec (build : Build) (r : Rep h v ts) (hroom : v.size < maxSize) (t : T) :
    ∃ σ, v.append build h t = some (σ, .done) ∧ Becomes h v σ (ts ++ [t]) := by
  have hroom' : ts.length < maxSize.toNat := by
    rw [← r.counted]
    exact UInt32.lt_iff_toNat_lt.mp hroom
  have hsucc : (v.size + 1).toNat = ts.length + 1 := toNat_succ r.counted r.bounded
  have hfull : v.size + 1 > v.capacity ↔ v.capacity.toNat = ts.length := by
    have hle := r.begins.length_le
    show v.capacity < v.size + 1 ↔ _
    rw [UInt32.lt_iff_toNat_lt, hsucc]
    omega
  -- an array with room, the assertion being true
  obtain ⟨σ, hmade, hsize, hlt, b⟩ : ∃ σ,
      (if v.size + 1 > v.capacity then v.grow h else some (h, v)) = some σ ∧
        σ.2.size = v.size ∧ ts.length < σ.2.capacity.toNat ∧ Becomes h v σ ts := by
    by_cases hgrow : v.size + 1 > v.capacity
    · rw [if_pos hgrow]
      exact grow_spec r (hfull.mp hgrow) hroom'
    · rw [if_neg hgrow]
      have hle := r.begins.length_le
      rw [hfull] at hgrow
      exact ⟨(h, v), rfl, rfl, by show _ < v.capacity.toNat; omega, r.unchanged⟩
  have hassert : ¬ (v.size + 1 > v.capacity ∧ build.Stops (v.capacity + 1 ≤ maxSize)) := by
    rintro ⟨hgrow, -, hviolated⟩
    apply hviolated
    rw [UInt32.le_iff_toNat_le, toNat_succ (hfull.mp hgrow) r.bounded]
    exact hroom'
  -- the element goes behind the last one, in the old array or in the new
  obtain ⟨h', hset, hpush, hx⟩ := b.rep.begins.push hlt t
  rw [← r.counted, ← hsize] at hset
  refine ⟨(h', { σ.2 with size := σ.2.size + 1 }), ?_, ⟨hpush, ?_, ?_, b.rep.step⟩,
    b.exchange.trans hx⟩
  · rw [append, if_neg hassert]
    simp only [Option.pure_def, hmade, hset, Option.bind_eq_bind, Option.bind_some]
  · rw [List.length_append, hsize]
    exact hsucc
  · rw [List.length_append]
    exact hroom'

/-- `removeAt`, at any position. -/
theorem removeAt_spec (r : Rep h v ts) (pos : UInt32) :
    ∃ σ, v.removeAt h pos = some (σ, .done) ∧ Becomes h v σ (ts.eraseIdx pos.toNat) := by
  have hbounded := r.bounded
  rw [maxSize_toNat] at hbounded
  have hguard : pos > v.size ↔ ts.length < pos.toNat := by
    show v.size < pos ↔ _
    rw [UInt32.lt_iff_toNat_lt, r.counted]
  by_cases hbehind : pos > v.size
  · refine ⟨(h, v), ?_, ?_⟩
    · rw [removeAt, removeRange, if_pos hbehind]
      rfl
    · rw [List.eraseIdx_of_length_le (Nat.le_of_lt (hguard.mp hbehind))]
      exact r.unchanged
  · have hle : pos.toNat ≤ ts.length := Nat.le_of_not_lt (mt hguard.mpr hbehind)
    have hsum : (1 + pos).toNat = pos.toNat + 1 := by
      rw [UInt32.toNat_add, UInt32.toNat_one]
      omega
    have hclamp : 1 + pos > v.size ↔ ts.length = pos.toNat := by
      show v.size < 1 + pos ↔ _
      rw [UInt32.lt_iff_toNat_lt, hsum, r.counted]
      omega
    rcases Nat.eq_or_lt_of_le hle with hend | hin
    · -- just behind the last element the length to remove becomes zero
      obtain rfl : pos = v.size := by rw [← UInt32.toNat_inj, r.counted, hend]
      refine ⟨(h, v), ?_, ?_⟩
      · rw [removeAt, removeRange, if_neg hbehind]
        simp only [if_pos (hclamp.mpr hend.symm), UInt32.sub_self, UInt32.add_zero,
          UInt32.sub_zero]
        rfl
      · rw [List.eraseIdx_of_length_le (Nat.le_of_eq hend.symm)]
        exact r.unchanged
    · -- inside, what is behind the element moves onto it
      obtain ⟨h', hmove, herase, hx⟩ := r.begins.erase hin
      have hrange : (pos + 1).toNat = pos.toNat + 1 := by rw [UInt32.add_comm, hsum]
      have hsize : (v.size - (pos + 1)).toNat = ts.length - (pos.toNat + 1) := by
        have hle' : pos + 1 ≤ v.size := by
          rw [UInt32.le_iff_toNat_le, hrange, r.counted]
          exact hin
        rw [UInt32.toNat_sub_of_le _ _ hle', hrange, r.counted]
      have hnot : ¬ 1 + pos > v.size := by
        rw [hclamp]
        omega
      refine ⟨(h', { v with size := v.size - 1 }), ?_, ⟨herase, ?_, ?_, r.step⟩, hx⟩
      · rw [removeAt, removeRange, if_neg hbehind]
        simp only [if_neg hnot, hrange, hsize, hmove, Option.bind_eq_bind, Option.bind_some,
          Option.pure_def]
      · rw [List.length_eraseIdx_of_lt hin]
        exact toNat_pred r.counted (by omega)
      · exact Nat.le_trans (List.length_eraseIdx_le ts pos.toNat) r.bounded

theorem removeFirst_spec (r : Rep h v ts) :
    ∃ σ, v.removeFirst h = some (σ, .done) ∧ Becomes h v σ ts.tail := by
  obtain ⟨σ, hremove, b⟩ := removeAt_spec r 0
  refine ⟨σ, hremove, ?_⟩
  rwa [UInt32.toNat_zero, List.eraseIdx_zero] at b

/-- An empty vector passes a position that wrapped. -/
theorem removeLast_spec (r : Rep h v ts) :
    ∃ σ, v.removeLast h = some (σ, .done) ∧ Becomes h v σ ts.dropLast := by
  obtain ⟨σ, hremove, b⟩ := removeAt_spec r (v.size - 1)
  refine ⟨σ, hremove, ?_⟩
  cases ts with
  | nil =>
      -- 0 - 1 is the largest position, and behind every end
      exact b
  | cons t ts =>
      rw [toNat_pred r.counted (Nat.zero_lt_succ _), List.eraseIdx_length_sub_one] at b
      exact b

theorem swap_spec (r : Rep h v ts) (first second : UInt32) :
    ∃ σ, v.swap h first second = some (σ, .done) ∧
      Becomes h v σ (swapAt ts first.toNat second.toNat) := by
  by_cases hguard : first = second ∨ first ≥ v.size ∨ second ≥ v.size
  · refine ⟨(h, v), ?_, ?_⟩
    · rw [swap, if_pos hguard]
      rfl
    · have hsame : swapAt ts first.toNat second.toNat = ts := by
        rcases hguard with rfl | hfirst | hsecond
        · exact swapAt_self ts first.toNat
        · exact swapAt_of_length_le (.inl ((ge_size_iff r.counted first).mp hfirst))
        · exact swapAt_of_length_le (.inr ((ge_size_iff r.counted second).mp hsecond))
      rw [hsame]
      exact r.unchanged
  · obtain ⟨-, hin⟩ := not_or.mp hguard
    rw [ge_size_iff r.counted, ge_size_iff r.counted, not_or, Nat.not_le, Nat.not_le] at hin
    obtain ⟨hfirst, hsecond⟩ := hin
    obtain ⟨t, ht⟩ : ∃ t, ts[first.toNat]? = some t := ⟨_, List.getElem?_eq_getElem hfirst⟩
    obtain ⟨u, hu⟩ : ∃ u, ts[second.toNat]? = some u := ⟨_, List.getElem?_eq_getElem hsecond⟩
    obtain ⟨h1, e1, s1, x1⟩ := r.begins.set hfirst u
    obtain ⟨h2, e2, s2, x2⟩ := s1.set (by rwa [List.length_set]) t
    refine ⟨(h2, v), ?_, ?_⟩
    · rw [swap, if_neg hguard]
      simp only [r.begins.get hfirst, r.begins.get hsecond, ht, hu, e1, e2, Option.bind_eq_bind,
        Option.bind_some, Option.pure_def]
    · rw [swapAt_eq ht hu]
      refine ⟨⟨s2, ?_, ?_, r.step⟩, x1.trans x2⟩
      · rw [List.length_set, List.length_set]
        exact r.counted
      · rw [List.length_set, List.length_set]
        exact r.bounded

theorem at'_spec (r : Rep h v ts) (pos : UInt32) :
    v.at' h pos = some ((h, v), ts[pos.toNat]?.elim .outOfRange .value) := by
  by_cases hout : pos ≥ v.size
  · rw [at', if_pos hout, List.getElem?_eq_none ((ge_size_iff r.counted pos).mp hout)]
    rfl
  · have hin : pos.toNat < ts.length := Nat.lt_of_not_le (mt (ge_size_iff r.counted pos).mpr hout)
    rw [at', if_neg hout]
    simp only [r.begins.get hin, List.getElem?_eq_getElem hin, Option.bind_eq_bind,
      Option.bind_some, Option.pure_def, Option.elim_some]

theorem first_spec (r : Rep h v ts) :
    v.first h = some ((h, v), ts.head?.elim .outOfRange .value) := by
  cases ts with
  | nil =>
      rw [first, if_pos ((size_eq_zero_iff r.counted).mpr rfl)]
      rfl
  | cons t ts =>
      have hsome : ¬ v.size = 0 := mt (size_eq_zero_iff r.counted).mp (List.cons_ne_nil t ts)
      rw [first, if_neg hsome, r.begins.get (Nat.zero_lt_succ _)]
      rfl

theorem last_spec (r : Rep h v ts) :
    v.last h = some ((h, v), ts.getLast?.elim .outOfRange .value) := by
  cases ts with
  | nil =>
      rw [last, if_pos ((size_eq_zero_iff r.counted).mpr rfl)]
      rfl
  | cons t ts =>
      have hsome : ¬ v.size = 0 := mt (size_eq_zero_iff r.counted).mp (List.cons_ne_nil t ts)
      have hlast := toNat_pred r.counted (Nat.zero_lt_succ _)
      have hin : (t :: ts).length - 1 < (t :: ts).length := Nat.lt_succ_self _
      rw [last, if_neg hsome, hlast, r.begins.get hin, ← List.getLast?_eq_getElem?,
        List.getLast?_eq_some_getLast (List.cons_ne_nil t ts)]
      rfl

/-- One call on a vector that holds `ts`. -/
theorem call_spec (build : Build) (r : Rep h v ts) {c : Call T} (hfits : v.Fits c) :
    ∃ σ, v.call build h c = some (σ, (sequence ts c).2) ∧ Becomes h v σ (sequence ts c).1 := by
  cases c with
  | append t => exact append_spec build r hfits t
  | removeAt pos => exact removeAt_spec r pos
  | removeFirst => exact removeFirst_spec r
  | removeLast => exact removeLast_spec r
  | swap first second => exact swap_spec r first second
  | clear =>
      obtain ⟨h', hclear, hx⟩ := clear_spec r.begins
      refine ⟨(h', _), ?_, rep_null h', ?_⟩
      · rw [call, hclear]
        rfl
      · exact Arrays.cells_null ▸ hx
  | at' pos => exact ⟨(h, v), at'_spec r pos, r.unchanged⟩
  | first => exact ⟨(h, v), first_spec r, r.unchanged⟩
  | last => exact ⟨(h, v), last_spec r, r.unchanged⟩

end LearnSpace.DataStructure.Vector
