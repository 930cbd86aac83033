import LearnSpace.DataStructure.VectorSequence

/-!
# Vectors as independent sequences

Under each name of a pool there is a vector exactly where there should be a sequence, and
it holds that sequence in an array of its own (`Holds`). A step replaces the vector of one
name; what it does to the heap concerns an array of that vector only, so the others are
as before (`Holds.exchange`). A move gives the array of one vector to another and leaves
null behind, which is an array nobody needs (`Holds.move`).
-/

namespace LearnSpace.DataStructure.Vector

open Keel Function

variable {T : Type} {h h' : Arrays T} {v t : Vector} {ts us : List T}

/-! ## Constructors -/

theorem construct_spec {build : Build} {size : UInt32} (hok : ¬ build.Stops (size ≤ maxSize)) :
    ∃ h' v, construct build h size = (h', some v) ∧ Rep h' v [] ∧
      Heap.Exchange h h' [] (Arrays.cells v.element) := by
  refine ⟨_, _, by rw [construct, if_neg hok], ?_, Arrays.exchange_new h size.toNat⟩
  exact ⟨Arrays.begins_new h size.toNat, rfl, Nat.zero_le _, rfl⟩

/-- A copy has its elements in an array of its own. -/
theorem copyConstruct_spec (r : Rep h t ts) :
    ∃ h' v, copyConstruct h t = some (h', v) ∧ Rep h' v ts ∧
      Heap.Exchange h h' [] (Arrays.cells v.element) := by
  obtain ⟨h', hmove, hbegins, hx⟩ := r.begins.copy r.begins.length_le
  rw [← r.counted] at hmove
  refine ⟨h', { t with element := (h.new t.capacity.toNat).1 }, ?_,
    ⟨hbegins, r.counted, r.bounded, r.step⟩, hx⟩
  simp only [copyConstruct, hmove, Option.bind_eq_bind, Option.bind_some, Option.pure_def]

/-- The copying operator does what the constructor does. -/
theorem copyAssign_eq (v : Vector) (h : Arrays T) (t : Vector) :
    v.copyAssign h t = copyConstruct h t := rfl

/-- The moving operator clears its vector and does what the constructor does. -/
theorem moveAssign_spec {n : Nat} (s : h.Begins v.element n us) (t : Vector) :
    ∃ h', v.clear h = some (h', { element := null, size := 0, step := stepUint, capacity := 0 }) ∧
      v.moveAssign h t = some (h', moveConstruct t) ∧
      Heap.Exchange h h' (Arrays.cells v.element) [] := by
  obtain ⟨h', hclear, hx⟩ := clear_spec s
  refine ⟨h', hclear, ?_, hx⟩
  rw [moveAssign, hclear]
  rfl

namespace Pool

variable {ι : Type} [DecidableEq ι] {σ : Pool ι T} {tss : ι → Option (List T)} {x y : ι}

@[simp] theorem put_heap (σ : Pool ι T) (x : ι) (state : Arrays T × Option Vector) :
    (σ.put x state).heap = state.1 := rfl

@[simp] theorem put_vector_self (σ : Pool ι T) (x : ι) (state : Arrays T × Option Vector) :
    (σ.put x state).vector x = state.2 := update_self ..

@[simp] theorem put_vector_of_ne (σ : Pool ι T) (state : Arrays T × Option Vector)
    (hxy : y ≠ x) : (σ.put x state).vector y = σ.vector y := update_of_ne hxy ..

/-- What is put first under a name is gone. -/
theorem put_put_put (σ : Pool ι T) (hxy : x ≠ y) (a b c : Arrays T × Option Vector) :
    ((σ.put x a).put y b).put x c = (σ.put y b).put x c := by
  simp only [put, update_comm hxy.symm, update_idem]

/-- Each vector of the pool holds its sequence, in an array of its own. -/
structure Holds (σ : Pool ι T) (tss : ι → Option (List T)) : Prop where
  rep : ∀ x, Option.Rel (Rep σ.heap) (σ.vector x) (tss x)
  apart : ∀ x y v w, x ≠ y → σ.vector x = some v → σ.vector y = some w →
    List.Disjoint (Arrays.cells v.element) (Arrays.cells w.element)

namespace Holds

omit [DecidableEq ι] in
theorem rep_some (s : Holds σ tss) (hx : σ.vector x = some v) :
    ∃ ts, tss x = some ts ∧ Rep σ.heap v ts := by
  have hrel := s.rep x
  rw [hx] at hrel
  cases hts : tss x with
  | none =>
      rw [hts] at hrel
      cases hrel
  | some ts =>
      rw [hts] at hrel
      cases hrel with
      | some r => exact ⟨ts, rfl, r⟩

omit [DecidableEq ι] in
theorem none_of (s : Holds σ tss) (hx : σ.vector x = none) : tss x = none := by
  have hrel := s.rep x
  rw [hx] at hrel
  cases hts : tss x with
  | none => rfl
  | some ts =>
      rw [hts] at hrel
      cases hrel

/-- A vector takes the place of another one, or of none, and leaves the arrays of the
others alone. -/
theorem put (s : Holds σ tss) (x : ι) {new : Option Vector} {us : Option (List T)}
    (hother : ∀ y w, y ≠ x → σ.vector y = some w → ∀ q ∈ Arrays.cells w.element,
      h.cell q = σ.heap.cell q ∧ ∀ v, new = some v → q ∉ Arrays.cells v.element)
    (hnew : Option.Rel (Rep h) new us) : Holds (σ.put x (h, new)) (update tss x us) where
  rep y := by
    by_cases hy : y = x
    · subst hy
      rw [put_vector_self, update_self]
      exact hnew
    · rw [put_vector_of_ne _ _ hy, update_of_ne hy]
      have hrel := s.rep y
      cases hw : σ.vector y with
      | none =>
          rw [s.none_of hw]
          exact .none
      | some w =>
          obtain ⟨ts, hts, r⟩ := s.rep_some hw
          rw [hts]
          exact .some (r.congr (fun q hq => (hother y w hy hw q hq).1))
  apart y z v w hyz hv hw := by
    by_cases hy : y = x
    · subst hy
      have hv' : new = some v := by simpa using hv
      have hw' : σ.vector z = some w := by simpa [Ne.symm hyz] using hw
      exact fun q hq hq' => (hother z w (Ne.symm hyz) hw' q hq').2 v hv' hq
    · have hv' : σ.vector y = some v := by simpa [hy] using hv
      by_cases hz : z = x
      · subst hz
        have hw' : new = some w := by simpa using hw
        exact fun q hq hq' => (hother y v hy hv' q hq).2 w hw' hq'
      · have hw' : σ.vector z = some w := by simpa [hz] using hw
        exact s.apart y z v w hyz hv' hw'

/-- The new vector has its cells from an operation on cells no other vector has. -/
theorem exchange (s : Holds σ tss) (x : ι) {new : Option Vector} {us : Option (List T)}
    {as bs : List Ptr} (hx : Heap.Exchange σ.heap h as bs)
    (has : ∀ y w, y ≠ x → σ.vector y = some w → List.Disjoint as (Arrays.cells w.element))
    (hbs : ∀ v, new = some v → Arrays.cells v.element = bs)
    (hnew : Option.Rel (Rep h) new us) : Holds (σ.put x (h, new)) (update tss x us) := by
  apply s.put x _ hnew
  intro y w hy hw q hq
  obtain ⟨ts, -, r⟩ := s.rep_some hw
  obtain ⟨hout, hcell⟩ := hx.other (r.begins.cells_live q hq)
    (fun hmem => has y w hy hw hmem hq)
  refine ⟨hcell, ?_⟩
  rintro v rfl
  rw [hbs v rfl]
  exact hout

/-- A vector in cells of its own that are new. -/
theorem fresh (s : Holds σ tss) (x : ι) (r : Rep h v us)
    (hx : Heap.Exchange σ.heap h [] (Arrays.cells v.element)) :
    Holds (σ.put x (h, some v)) (update tss x (some us)) := by
  refine s.exchange x hx ?_ ?_ (.some r)
  · intro y w _ _ q hq
    exact absurd hq List.not_mem_nil
  · rintro v ⟨⟩
    rfl

/-- What becomes of a vector in its own cells. -/
theorem becomes (s : Holds σ tss) (hv : σ.vector x = some v) {τ : State T}
    (b : Becomes σ.heap v τ us) : Holds (σ.put x (τ.1, some τ.2)) (update tss x (some us)) := by
  refine s.exchange x b.exchange ?_ ?_ (.some b.rep)
  · intro y w hy hw
    exact s.apart x y v w (Ne.symm hy) hv hw
  · rintro v ⟨⟩
    rfl

/-- The array of `y` goes to `x`. -/
theorem move (s : Holds σ tss) (hxy : x ≠ y) (ht : σ.vector y = some t) :
    Holds ((σ.put y (σ.heap, some (moveConstruct t).2)).put x (σ.heap, some (moveConstruct t).1))
      (update (update tss y (some [])) x (tss y)) := by
  obtain ⟨ts, hts, r⟩ := s.rep_some ht
  have hleft : Rep σ.heap (moveConstruct t).2 ([] : List T) :=
    ⟨Arrays.begins_null σ.heap, rfl, Nat.zero_le _, r.step⟩
  -- `y` gives its array up, so that nobody has it when `x` gets it
  have s1 : Holds (σ.put y (σ.heap, some (moveConstruct t).2)) (update tss y (some [])) := by
    refine s.exchange y (.refl σ.heap []) ?_ ?_ (.some hleft)
    · intro z w _ _ q hq
      exact absurd hq List.not_mem_nil
    · rintro v ⟨⟩
      exact Arrays.cells_null
  rw [hts]
  refine s1.put x ?_ (.some r)
  intro z w hz hw q hq
  refine ⟨rfl, ?_⟩
  rintro v ⟨⟩ hq'
  by_cases hzy : z = y
  · subst hzy
    obtain rfl : (moveConstruct t).2 = w := by simpa using hw
    rw [moveConstruct, Arrays.cells_null] at hq
    exact List.not_mem_nil hq
  · have hw' : σ.vector z = some w := by simpa [hzy] using hw
    exact s.apart y z t w (Ne.symm hzy) ht hw' hq' hq

end Holds

/-! ## Steps of the client -/

section Steps

variable (build : Build)

theorem use_construct (s : Holds σ tss) (x : ι) :
    ∃ σ', σ.use build (.construct x) = some (σ', .done) ∧
      Holds σ' (update tss x (some [])) := by
  have hok : ¬ build.Stops ((0 : UInt32) ≤ maxSize) := fun hstops => hstops.2 (by decide)
  obtain ⟨h', v, hnew, r, hx⟩ := construct_spec (h := σ.heap) hok
  refine ⟨σ.put x (h', some v), ?_, s.fresh x r hx⟩
  rw [use, hnew]

theorem use_constructCapacity (s : Holds σ tss) (capacity : UInt32)
    (hfree : σ.vector x = none) :
    ∃ σ', σ.use build (.constructCapacity x capacity) =
        some (σ', ((sequences build ι T).next tss (.constructCapacity x capacity)).2) ∧
      Holds σ' ((sequences build ι T).next tss (.constructCapacity x capacity)).1 := by
  by_cases hstops : build.Stops (capacity ≤ maxSize)
  · -- the process ends, and no vector comes into being
    have hnew : Vector.construct build σ.heap capacity = (σ.heap, none) := if_pos hstops
    have hput : σ.put x (σ.heap, none) = σ := by
      rw [Pool.put, ← hfree, update_eq_self]
    refine ⟨σ, ?_, ?_⟩ <;> simp only [sequences, if_pos hstops]
    · rw [use, hnew, hput]
      rfl
    · exact s
  · obtain ⟨h', v, hnew, r, hx⟩ := construct_spec (h := σ.heap) hstops
    refine ⟨σ.put x (h', some v), ?_, ?_⟩ <;> simp only [sequences, if_neg hstops]
    · rw [use, hnew]
      rfl
    · exact s.fresh x r hx

theorem use_copyConstruct (s : Holds σ tss) (x : ι) (ht : σ.vector y = some t) :
    ∃ σ', σ.use build (.copyConstruct x y) = some (σ', .done) ∧
      Holds σ' (update tss x (tss y)) := by
  obtain ⟨ts, hts, r⟩ := s.rep_some ht
  obtain ⟨h', v, hcopy, r', hx⟩ := copyConstruct_spec r
  refine ⟨σ.put x (h', some v), ?_, ?_⟩
  · simp only [use, ht, hcopy, Option.bind_eq_bind, Option.bind_some, Option.pure_def]
  · rw [hts]
    exact s.fresh x r' hx

theorem use_copyAssign (s : Holds σ tss) (hv : σ.vector x = some v) (ht : σ.vector y = some t) :
    ∃ σ', σ.use build (.copyAssign x y) = some (σ', .done) ∧
      Holds σ' (update tss x (tss y)) := by
  by_cases hxy : x = y
  · subst hxy
    refine ⟨σ, ?_, ?_⟩
    · simp only [use, hv, if_true, Option.bind_eq_bind, Option.bind_some, Option.pure_def]
    · rw [update_eq_self]
      exact s
  · obtain ⟨ts, hts, r⟩ := s.rep_some ht
    obtain ⟨h', w, hcopy, r', hx⟩ := copyConstruct_spec r
    refine ⟨σ.put x (h', some w), ?_, ?_⟩
    · simp only [use, hv, ht, if_neg hxy, copyAssign_eq, hcopy, Option.bind_eq_bind,
        Option.bind_some, Option.pure_def]
    · rw [hts]
      exact s.fresh x r' hx

theorem use_moveConstruct (s : Holds σ tss) (hxy : x ≠ y) (ht : σ.vector y = some t) :
    ∃ σ', σ.use build (.moveConstruct x y) = some (σ', .done) ∧
      Holds σ' (update (update tss y (some [])) x (tss y)) := by
  refine ⟨_, ?_, s.move hxy ht⟩
  simp only [use, ht, Option.bind_eq_bind, Option.bind_some, Option.pure_def]

theorem use_moveAssign (s : Holds σ tss) (hxy : x ≠ y) (hv : σ.vector x = some v)
    (ht : σ.vector y = some t) :
    ∃ σ', σ.use build (.moveAssign x y) = some (σ', .done) ∧
      Holds σ' (update (update tss y (some [])) x (tss y)) := by
  obtain ⟨ts, hts, r⟩ := s.rep_some hv
  obtain ⟨h', hclear, hmove, hx⟩ := moveAssign_spec r.begins t
  -- first the vector is cleared, then it gets the array
  have s1 := s.becomes hv (τ := (h', _)) ⟨rep_null h', Arrays.cells_null ▸ hx⟩
  have s2 := s1.move hxy ((put_vector_of_ne _ _ (Ne.symm hxy)).trans ht)
  rw [put_heap, put_put_put σ hxy, update_of_ne (Ne.symm hxy), update_comm hxy,
    update_idem] at s2
  refine ⟨_, ?_, s2⟩
  simp only [use, hv, ht, if_neg hxy, hmove, Option.bind_eq_bind, Option.bind_some,
    Option.pure_def]

theorem use_call (s : Holds σ tss) {c : Call T} (hv : σ.vector x = some v) (hfits : v.Fits c) :
    ∃ σ', σ.use build (.call x c) =
        some (σ', ((sequences build ι T).next tss (.call x c)).2) ∧
      Holds σ' ((sequences build ι T).next tss (.call x c)).1 := by
  obtain ⟨ts, hts, r⟩ := s.rep_some hv
  obtain ⟨τ, hcall, b⟩ := call_spec build r hfits
  refine ⟨σ.put x (τ.1, some τ.2), ?_, ?_⟩ <;> simp only [sequences, hts]
  · simp only [use, hv, hcall, Option.bind_eq_bind, Option.bind_some, Option.pure_def]
  · exact s.becomes hv b

theorem use_destroy (s : Holds σ tss) (hv : σ.vector x = some v) :
    ∃ σ', σ.use build (.destroy x) = some (σ', .done) ∧ Holds σ' (update tss x none) := by
  obtain ⟨ts, hts, r⟩ := s.rep_some hv
  obtain ⟨h', hclear, hx⟩ := clear_spec r.begins
  refine ⟨σ.put x (h', none), ?_, s.exchange x hx ?_ nofun .none⟩
  · simp only [use, hv, hclear, Option.bind_eq_bind, Option.bind_some, Option.pure_def]
  · intro y w hy hw
    exact s.apart x y v w (Ne.symm hy) hv hw

end Steps

/-! ## Runs -/

theorem refines_sequences (build : Build) :
    (vectors build ι T).Refines Legal (sequences build ι T) Holds where
  start := ⟨fun _ => .none, nofun⟩
  exec := by
    intro σ tss u s hlegal
    cases u with
    | construct x => exact use_construct build s x
    | constructCapacity x capacity =>
        exact use_constructCapacity build s capacity (Option.isNone_iff_eq_none.mp hlegal)
    | copyConstruct x y =>
        obtain ⟨t, ht⟩ := Option.isSome_iff_exists.mp hlegal.2
        exact use_copyConstruct build s x ht
    | moveConstruct x y =>
        obtain ⟨t, ht⟩ := Option.isSome_iff_exists.mp hlegal.2
        have hxy : x ≠ y := by
          rintro rfl
          rw [Option.isNone_iff_eq_none.mp hlegal.1] at ht
          cases ht
        exact use_moveConstruct build s hxy ht
    | copyAssign x y =>
        obtain ⟨v, hv⟩ := Option.isSome_iff_exists.mp hlegal.1
        obtain ⟨t, ht⟩ := Option.isSome_iff_exists.mp hlegal.2
        exact use_copyAssign build s hv ht
    | moveAssign x y =>
        obtain ⟨v, hv⟩ := Option.isSome_iff_exists.mp hlegal.1
        obtain ⟨t, ht⟩ := Option.isSome_iff_exists.mp hlegal.2
        by_cases hxy : x = y
        · subst hxy
          refine ⟨σ, ?_, ?_⟩ <;> simp only [sequences, if_true]
          · show σ.use build (.moveAssign x x) = _
            simp only [use, hv, if_true, Option.bind_eq_bind, Option.bind_some, Option.pure_def]
          · exact s
        · simp only [sequences, if_neg hxy]
          exact use_moveAssign build s hxy hv ht
    | call x c =>
        obtain ⟨v, hv, hfits⟩ := hlegal
        exact use_call build s hv hfits
    | destroy x =>
        obtain ⟨v, hv⟩ := Option.isSome_iff_exists.mp hlegal
        exact use_destroy build s hv

/-- **Vectors as sequences.** No run accesses anything outside the arrays; every run
answers as independent sequences do, and ends in vectors that hold them, with sizes within
their capacities. -/
theorem vectors_are_sequences (build : Build) (us : List (Use ι T))
    (hlegal : (vectors build ι T).Obeys Legal (vectors build ι T).start us) :
    ∃ σ, (vectors build ι T).run (vectors build ι T).start us =
        some (σ, ((sequences build ι T).run (sequences build ι T).start us).2) ∧
      Holds σ ((sequences build ι T).run (sequences build ι T).start us).1 ∧
      ∀ x v, σ.vector x = some v → v.size ≤ v.capacity := by
  obtain ⟨σ, hrun, s⟩ := (refines_sequences build).run us hlegal
  refine ⟨σ, hrun, s, ?_⟩
  intro x v hv
  obtain ⟨ts, -, r⟩ := s.rep_some hv
  exact r.size_le_capacity

/-- A copy, a move and calls out of range on two vectors. -/
def twoVectors : List (Use Bool Nat) :=
  [.construct true, .call true .removeLast, .call true (.append 1), .call true (.append 2),
    .copyConstruct false true, .call false (.swap 0 1), .call true .last,
    .moveAssign true false, .call false .first, .call false (.append 3), .call true (.at' 1),
    .call true (.at' 2), .destroy true]

theorem vectors_are_sequences_two :
    ((vectors .debug Bool Nat).run (vectors .debug Bool Nat).start twoVectors).map Prod.snd =
      some [.done, .done, .done, .done, .done, .done, .value 2, .done, .outOfRange, .done,
        .value 1, .outOfRange, .done] := by
  obtain ⟨σ, hrun, -⟩ := vectors_are_sequences .debug twoVectors (by decide +kernel)
  rw [hrun]
  rfl

end Pool

end LearnSpace.DataStructure.Vector
