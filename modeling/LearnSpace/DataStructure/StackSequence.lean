import LearnSpace.DataStructure.Stack
import LearnSpace.DataStructure.VectorPool

/-!
# Stacks are last in, first out

A stack holds a list where its vector does and where the position on top is that of the
last element (`Rep`). Pushing and popping move the two counters together; a `pop` that
throws has touched neither. What the calls do to the heap is known from the vector, so
the pool of stacks is the pool of their vectors (`Pool.vectors`) with counters beside it.
-/

namespace LearnSpace.DataStructure.Stack

open Keel Function

variable {T : Type} {h : Arrays T} {s t : Stack} {ts us : List T}

/-! ## The position on top -/

theorem increment_spec {n : Int32} {k : Nat} (hn : n.toInt + 1 = k) (hk : k < 2 ^ 31) :
    ∃ m, increment n = some m ∧ m.toInt + 1 = (k + 1 : Nat) := by
  have hmax : Int32.maxValue.toInt = 2147483647 := rfl
  refine ⟨n + 1, if_neg ?_, ?_⟩
  · rintro rfl
    omega
  · have hone : (1 : Int32).toInt = 1 := rfl
    have hlow := n.le_toInt
    rw [Int32.toInt_add, hone, Int.bmod_eq_of_le (by omega) (by omega)]
    omega

theorem decrement_spec {n : Int32} {k : Nat} (hn : n.toInt + 1 = k) (hk : 0 < k) :
    ∃ m, decrement n = some m ∧ m.toInt + 1 = (k - 1 : Nat) := by
  have hmin : Int32.minValue.toInt = -2147483648 := rfl
  refine ⟨n - 1, if_neg ?_, ?_⟩
  · rintro rfl
    omega
  · have hone : (1 : Int32).toInt = 1 := rfl
    have hhigh := n.toInt_lt
    rw [Int32.toInt_sub, hone, Int.bmod_eq_of_le (by omega) (by omega)]
    omega

/-- The position of the last element, as `removeAt` gets it. -/
theorem toNat_top {n : Int32} {k : Nat} (hn : n.toInt + 1 = k) (hk : 0 < k) :
    n.toUInt32.toNat = k - 1 := by
  rw [toNat_toUInt32 (by omega)]
  omega

/-! ## Calls -/

/-- `s` holds the list `ts`, the top at its end. -/
structure Rep (h : Arrays T) (s : Stack) (ts : List T) : Prop where
  vector : Vector.Rep h s.vector ts
  top : s.top.toInt + 1 = ts.length

/-- What a call makes of `s`: a stack that holds `us`, with no array touched that is not
the stack's. -/
structure Becomes (h : Arrays T) (s : Stack) (σ : State T) (us : List T) : Prop where
  vector : Vector.Becomes h s.vector (σ.1, σ.2.vector) us
  top : σ.2.top.toInt + 1 = us.length

/-- A call that changes nothing. -/
theorem Rep.unchanged (r : Rep h s ts) : Becomes h s (h, s) ts := ⟨r.vector.unchanged, r.top⟩

theorem isEmpty_spec (r : Rep h s ts) : s.isEmpty = ts.isEmpty := by
  have htop := r.top
  have hnpos : s.top = npos ↔ ts = [] := by
    have hvalue : npos.toInt = -1 := rfl
    rw [← Int32.toInt_inj, hvalue, ← List.length_eq_zero_iff]
    omega
  rw [isEmpty, Bool.eq_iff_iff, decide_eq_true_iff, hnpos, List.isEmpty_iff]

theorem push_spec (build : Build) (r : Rep h s ts) (hroom : s.vector.size < 0x80000000) (t : T) :
    ∃ σ, s.push build h t = some (σ, .done) ∧ Becomes h s σ (ts ++ [t]) := by
  have hroom' : s.vector.size.toNat < 2 ^ 31 := UInt32.lt_iff_toNat_lt.mp hroom
  have hfits : s.vector.size < maxSize := by
    rw [UInt32.lt_iff_toNat_lt, maxSize_toNat]
    omega
  obtain ⟨⟨h', v⟩, happend, b⟩ := Vector.append_spec build r.vector hfits t
  obtain ⟨top, hincrement, htop⟩ := increment_spec r.top (r.vector.counted ▸ hroom')
  refine ⟨(h', { vector := v, top := top }), ?_, b, ?_⟩
  · simp only [push, happend, hincrement, Option.bind_eq_bind, Option.bind_some, Option.pure_def]
  · rw [List.length_append]
    exact htop

/-- A list is no longer than the position on top can tell. -/
theorem Rep.length_le (r : Rep h s ts) : ts.length ≤ 2 ^ 31 := by
  have htop := r.top
  have hhigh := s.top.toInt_lt
  omega

/-- One more push than that is undefined, although the vector has room for it. -/
theorem push_none (build : Build) (r : Rep h s ts) (hfull : 2 ^ 31 ≤ ts.length) (t : T) :
    s.push build h t = none := by
  have hlength := r.length_le
  have hfits : s.vector.size < maxSize := by
    rw [UInt32.lt_iff_toNat_lt, maxSize_toNat, r.vector.counted]
    omega
  obtain ⟨⟨h', v⟩, happend, -⟩ := Vector.append_spec build r.vector hfits t
  have hmax : s.top = Int32.maxValue := by
    have htop := r.top
    have hvalue : Int32.maxValue.toInt = 2147483647 := rfl
    rw [← Int32.toInt_inj, hvalue]
    omega
  simp only [push, happend, increment, if_pos hmax, Option.bind_eq_bind, Option.bind_some,
    Option.bind_none]

theorem top'_spec (r : Rep h s ts) :
    s.top' h = some ((h, s), ts.getLast?.elim .outOfRange .value) := by
  simp only [top', Vector.last_spec r.vector, Option.bind_eq_bind, Option.bind_some,
    Option.pure_def]
  cases ts.getLast? <;> rfl

/-- An exception comes before both counters are changed. -/
theorem pop_nil (r : Rep h s ([] : List T)) : s.pop h = some ((h, s), .outOfRange) := by
  simp only [pop, Vector.last_spec r.vector, List.getLast?_nil, Option.elim_none,
    Option.bind_eq_bind, Option.bind_some, Option.pure_def]
  rfl

theorem pop_spec (r : Rep h s ts) :
    ∃ σ, s.pop h = some (σ, ts.getLast?.elim .outOfRange .value) ∧
      Becomes h s σ ts.dropLast := by
  cases ts with
  | nil => exact ⟨(h, s), pop_nil r, r.unchanged⟩
  | cons t ts =>
      have hpos : 0 < (t :: ts).length := Nat.zero_lt_succ _
      obtain ⟨⟨h', v⟩, hremove, b⟩ := Vector.removeAt_spec r.vector s.top.toUInt32
      obtain ⟨top, hdecrement, htop⟩ := decrement_spec r.top hpos
      rw [toNat_top r.top hpos, List.eraseIdx_length_sub_one] at b
      refine ⟨(h', { vector := v, top := top }), ?_, b, ?_⟩
      · simp only [pop, Vector.last_spec r.vector, hremove, hdecrement, Option.bind_eq_bind,
          Option.bind_some, Option.pure_def, List.getLast?_cons, Option.elim_some]
      · rw [List.length_dropLast]
        exact htop

theorem clear_spec (r : Rep h s ts) :
    ∃ σ, s.clear h = some σ ∧ Becomes h s σ [] := by
  obtain ⟨h', hclear, hx⟩ := Vector.clear_spec r.vector.begins
  refine ⟨(h', { vector := _, top := npos }), ?_, ⟨Vector.rep_null h', ?_⟩, rfl⟩
  · rw [clear, hclear]
    rfl
  · exact Arrays.cells_null ▸ hx

/-- One call on a stack that holds `ts`. -/
theorem call_spec (build : Build) (r : Rep h s ts) {c : Call T} (hfits : s.Fits c) :
    ∃ σ, s.call build h c = some (σ, (lifo ts c).2) ∧ Becomes h s σ (lifo ts c).1 := by
  cases c with
  | push t => exact push_spec build r hfits t
  | pop => exact pop_spec r
  | top => exact ⟨(h, s), top'_spec r, r.unchanged⟩
  | clear =>
      obtain ⟨σ, hclear, b⟩ := clear_spec r
      refine ⟨σ, ?_, b⟩
      rw [call, hclear]
      rfl
  | isEmpty =>
      refine ⟨(h, s), ?_, r.unchanged⟩
      rw [call, isEmpty_spec r]
      rfl

/-! ## Pools -/

namespace Pool

variable {ι : Type} {σ : Pool ι T} {tss uss : ι → Option (List T)} {x y : ι}

/-- The vectors of the stacks. -/
def vectors (σ : Pool ι T) : Vector.Pool ι T where
  heap := σ.heap
  vector x := (σ.stack x).map Stack.vector

/-- Each stack of the pool holds its list, in an array of its own. -/
structure Holds (σ : Pool ι T) (tss : ι → Option (List T)) : Prop where
  vectors : Vector.Pool.Holds σ.vectors tss
  top : ∀ x s, σ.stack x = some s → s.top.toInt + 1 = s.vector.size.toNat

theorem vectors_apply (σ : Pool ι T) (x : ι) :
    σ.vectors.vector x = (σ.stack x).map Stack.vector := rfl

theorem vectors_vector (hs : σ.stack x = some s) : σ.vectors.vector x = some s.vector := by
  rw [vectors_apply, hs, Option.map_some]

theorem Holds.rep_some (r : Holds σ tss) (hs : σ.stack x = some s) :
    ∃ ts, tss x = some ts ∧ Rep σ.heap s ts := by
  obtain ⟨ts, hts, rep⟩ := r.vectors.rep_some (vectors_vector hs)
  exact ⟨ts, hts, rep, rep.counted ▸ r.top x s hs⟩

/-- Where there is a list there is a stack that holds it. -/
theorem Holds.stack_some (r : Holds σ tss) (hts : tss x = some ts) :
    ∃ s, σ.stack x = some s ∧ Rep σ.heap s ts := by
  cases hs : σ.stack x with
  | none =>
      have hnone := r.vectors.none_of (x := x) (by rw [vectors_apply, hs, Option.map_none])
      rw [hts] at hnone
      cases hnone
  | some s =>
      obtain ⟨us, hus, rep⟩ := r.rep_some hs
      rw [hts] at hus
      cases hus
      exact ⟨s, rfl, rep⟩

variable [DecidableEq ι]

theorem vectors_put (σ : Pool ι T) (x : ι) (h : Arrays T) (new : Option Stack) :
    (σ.put x (h, new)).vectors = σ.vectors.put x (h, new.map Stack.vector) := by
  have hvector := comp_update (Option.map Stack.vector) σ.stack x new
  exact congrArg (Vector.Pool.mk h) hvector

namespace Holds

/-- A stack takes the place of another one, or of none, as its vector does. -/
theorem put (r : Holds σ tss) (x : ι) {new : Option Stack}
    (hvectors : Vector.Pool.Holds (σ.vectors.put x (h, new.map Stack.vector)) uss)
    (htop : ∀ s, new = some s → s.top.toInt + 1 = s.vector.size.toNat) :
    Holds (σ.put x (h, new)) uss where
  vectors := by
    rw [vectors_put]
    exact hvectors
  top := by
    intro y s hs
    unfold Pool.put at hs
    by_cases hy : y = x
    · subst hy
      exact htop s ((update_self (β := fun _ => Option Stack) y new σ.stack).symm.trans hs)
    · exact r.top y s ((update_of_ne hy new σ.stack).symm.trans hs)

/-- What becomes of a stack in its own array. -/
theorem becomes (r : Holds σ tss) (hs : σ.stack x = some s) {τ : State T}
    (b : Becomes σ.heap s τ us) : Holds (σ.put x (τ.1, some τ.2)) (update tss x (some us)) := by
  refine r.put x (r.vectors.becomes (vectors_vector hs) b.vector) ?_
  rintro s ⟨⟩
  rw [b.vector.rep.counted]
  exact b.top

/-- A stack in an array of its own that is new. -/
theorem fresh (r : Holds σ tss) (x : ι) (hrep : Rep h s us)
    (hx : Heap.Exchange σ.heap h [] (Arrays.cells s.vector.element)) :
    Holds (σ.put x (h, some s)) (update tss x (some us)) := by
  refine r.put x (r.vectors.fresh x hrep.vector hx) ?_
  rintro s ⟨⟩
  rw [hrep.vector.counted]
  exact hrep.top

end Holds

/-! ## Steps of the client -/

section Steps

variable (build : Build)

theorem use_construct (r : Holds σ tss) (x : ι) :
    ∃ σ', σ.use build (.construct x) = some (σ', .done) ∧
      Holds σ' (update tss x (some [])) := by
  have hok : ¬ build.Stops ((10 : UInt32) ≤ maxSize) := fun hstops => hstops.2 (by decide)
  obtain ⟨h', v, hnew, rep, hx⟩ := Vector.construct_spec (h := σ.heap) hok
  have hrep : Rep h' { vector := v, top := npos } ([] : List T) := ⟨rep, rfl⟩
  refine ⟨_, ?_, r.fresh x hrep hx⟩
  rw [use, Stack.construct, hnew]
  rfl

theorem copyConstruct_spec (r : Rep h t ts) :
    ∃ h' s, copyConstruct h t = some (h', s) ∧ Rep h' s ts ∧
      Heap.Exchange h h' [] (Arrays.cells s.vector.element) := by
  obtain ⟨h', v, hcopy, rep, hx⟩ := Vector.copyConstruct_spec r.vector
  refine ⟨h', { vector := v, top := t.top }, ?_, ⟨rep, r.top⟩, hx⟩
  simp only [copyConstruct, hcopy, Option.bind_eq_bind, Option.bind_some, Option.pure_def]

theorem use_copyConstruct (r : Holds σ tss) (x : ι) (ht : σ.stack y = some t) :
    ∃ σ', σ.use build (.copyConstruct x y) = some (σ', .done) ∧
      Holds σ' (update tss x (tss y)) := by
  obtain ⟨ts, hts, rep⟩ := r.rep_some ht
  obtain ⟨h', s, hcopy, rep', hx⟩ := copyConstruct_spec rep
  refine ⟨σ.put x (h', some s), ?_, ?_⟩
  · simp only [use, ht, hcopy, Option.bind_eq_bind, Option.bind_some, Option.pure_def]
  · rw [hts]
    exact r.fresh x rep' hx

theorem use_call (r : Holds σ tss) {c : Call T} (hs : σ.stack x = some s) (hfits : s.Fits c) :
    ∃ σ', σ.use build (.call x c) = some (σ', ((lists ι T).next tss (.call x c)).2) ∧
      Holds σ' ((lists ι T).next tss (.call x c)).1 := by
  obtain ⟨ts, hts, rep⟩ := r.rep_some hs
  obtain ⟨τ, hcall, b⟩ := call_spec build rep hfits
  refine ⟨σ.put x (τ.1, some τ.2), ?_, ?_⟩ <;> simp only [lists, hts]
  · simp only [use, hs, hcall, Option.bind_eq_bind, Option.bind_some, Option.pure_def]
  · exact r.becomes hs b

theorem use_destroy (r : Holds σ tss) (hs : σ.stack x = some s) :
    ∃ σ', σ.use build (.destroy x) = some (σ', .done) ∧ Holds σ' (update tss x none) := by
  obtain ⟨ts, hts, rep⟩ := r.rep_some hs
  obtain ⟨h', hclear, hx⟩ := Vector.clear_spec rep.vector.begins
  refine ⟨σ.put x (h', none), ?_, r.put x (r.vectors.exchange x hx ?_ nofun .none) nofun⟩
  · simp only [use, hs, hclear, Option.bind_eq_bind, Option.bind_some, Option.pure_def]
  · intro y w hy hw
    exact r.vectors.apart x y s.vector w (Ne.symm hy) (vectors_vector hs) hw

end Steps

/-! ## Runs -/

theorem refines_lists (build : Build) :
    (stackPool build ι T).Refines Legal (lists ι T) Holds where
  start := ⟨⟨fun _ => .none, nofun⟩, nofun⟩
  exec := by
    intro σ tss u r hlegal
    cases u with
    | construct x => exact use_construct build r x
    | copyConstruct x y =>
        obtain ⟨t, ht⟩ := Option.isSome_iff_exists.mp hlegal.2
        exact use_copyConstruct build r x ht
    | moveConstruct x y =>
        obtain ⟨t, ht⟩ := Option.isSome_iff_exists.mp hlegal.2
        exact use_copyConstruct build r x ht
    | call x c =>
        obtain ⟨s, hs, hfits⟩ := hlegal
        exact use_call build r hs hfits
    | destroy x =>
        obtain ⟨s, hs⟩ := Option.isSome_iff_exists.mp hlegal
        exact use_destroy build r hs

/-- A `top` or a `pop` of an empty stack throws and leaves the pool as it was. -/
theorem throws_of_empty (build : Build) (r : Holds σ tss) (hempty : tss x = some [])
    {c : Call T} (hc : c = .pop ∨ c = .top) :
    σ.use build (.call x c) = some (σ, .outOfRange) := by
  obtain ⟨s, hs, rep⟩ := r.stack_some hempty
  have hput : σ.put x (σ.heap, some s) = σ := by
    rw [Pool.put, ← hs, update_eq_self]
  have hcall : s.call build σ.heap c = some ((σ.heap, s), .outOfRange) := by
    rcases hc with rfl | rfl
    · exact pop_nil rep
    · exact top'_spec rep
  simp only [use, hs, hcall, hput, Option.bind_eq_bind, Option.bind_some, Option.pure_def]

/-- **Last in, first out.** Every run answers as lists with the top at their end do, and
ends in stacks that hold them: the position on top is one less than the size of the
vector, and a call that throws changes nothing. -/
theorem stacks_are_lifo (build : Build) (us : List (Use ι T))
    (hlegal : (stackPool build ι T).Obeys Legal (stackPool build ι T).start us) :
    ∃ σ, (stackPool build ι T).run (stackPool build ι T).start us =
        some (σ, ((lists ι T).run (lists ι T).start us).2) ∧
      Holds σ ((lists ι T).run (lists ι T).start us).1 ∧
      (∀ x s, σ.stack x = some s → s.top.toInt + 1 = s.vector.size.toNat) ∧
      ∀ x c, ((lists ι T).run (lists ι T).start us).1 x = some [] → c = .pop ∨ c = .top →
        σ.use build (.call x c) = some (σ, .outOfRange) := by
  obtain ⟨σ, hrun, r⟩ := (refines_lists build).run us hlegal
  exact ⟨σ, hrun, r, r.top, fun x c hempty hc => throws_of_empty build r hempty hc⟩

/-- A stack that throws, is emptied and copied. -/
def twoStacks : List (Use Bool Nat) :=
  [.construct true, .call true .pop, .call true (.push 1), .call true (.push 2),
    .copyConstruct false true, .call true .pop, .call true .pop, .call true .isEmpty,
    .call true .top, .call false .top, .call false (.push 3), .call false .pop,
    .call false .clear, .call false .pop, .destroy true]

theorem stacks_are_lifo_two :
    ((stackPool .debug Bool Nat).run (stackPool .debug Bool Nat).start twoStacks).map Prod.snd =
      some [.done, .outOfRange, .done, .done, .done, .value 2, .value 1, .isEmpty true,
        .outOfRange, .value 2, .done, .value 3, .done, .outOfRange, .done] := by
  obtain ⟨σ, hrun, -⟩ := stacks_are_lifo .debug twoStacks (by decide +kernel)
  rw [hrun]
  rfl

end Pool

end LearnSpace.DataStructure.Stack
