import LearnSpace.DataStructure.VectorInsert

/-!
# A vector that is given one of its own elements

`append` and `insert` take their argument by reference, and read it last: behind the growth
code, which frees the array there was, and behind the loop of `insert`, which shifts the
elements from the position on. `operator[]`, `first` and `last` hand out references into the
array. So an element of a full vector is read out of freed memory, and one behind the
position of an `insert` is read after its neighbour was written over it
(`vector_alias_iff`).
-/

namespace LearnSpace.DataStructure.Vector

open Keel

variable {T : Type} {build : Build} {σ τ : State T} {ts : List T} {h h' : Arrays T} {p : Ptr}

/-- A reference to an element of an array. -/
structure Ref where
  array : Ptr
  index : Nat

/-- What a reference refers to now. -/
def Ref.read (r : Ref) (h : Arrays T) : Option T := h.get r.array r.index

/-- `operator[]` for a position of an element. -/
def elementAt (v : Vector) (pos : UInt32) : Ref := { array := v.element, index := pos.toNat }

/-- `append`, given a reference. -/
def appendRef (build : Build) (v : Vector) (h : Arrays T) (r : Ref) :
    Option (State T × Answer T) := do
  if v.size + 1 > v.capacity ∧ build.Stops (v.capacity + 1 ≤ maxSize) then
    return ((h, v), .aborted)
  let (h, v) ← (if v.size + 1 > v.capacity then v.grow h else return (h, v))
  let t ← r.read h
  let h ← h.set v.element v.size.toNat t
  return ((h, { v with size := v.size + 1 }), .done)

/-- `insert`, given a reference. -/
def insertRef (build : Build) (v : Vector) (h : Arrays T) (pos : UInt32) (r : Ref) :
    Option (State T × Answer T) := do
  let size := v.size + 1
  if pos > size then
    return ((h, v), .done)
  if size > v.capacity ∧ build.Stops (v.capacity + 1 ≤ maxSize) then
    return ((h, v), .aborted)
  let (h, v) ← (if size > v.capacity then v.grow h else return (h, v))
  let count := v.size - pos
  let h ← insertLoop v.element count.toNat v.size h
  let t ← r.read h
  let h ← h.set v.element pos.toNat t
  return ((h, { v with size := v.size + 1 }), .done)

/-- The indices the loop of `insert` writes. -/
def shiftWrites : Nat → UInt32 → List Nat
  | 0, _ => []
  | count + 1, movePos => movePos.toNat :: shiftWrites count (movePos - 1)

/-- What the methods are for, given the element at `i` of a vector that holds `ts`: its value
is added, and it is not written over before it is read. -/
def AliasRight (build : Build) (σ : State T) (ts : List T) (i pos : UInt32) : Prop :=
  (∃ t, ts[i.toNat]? = some t ∧
    (∃ τ, σ.2.appendRef build σ.1 (σ.2.elementAt i) = some (τ, .done) ∧ Stored τ (ts ++ [t])) ∧
    ∃ τ, σ.2.insertRef build σ.1 pos (σ.2.elementAt i) = some (τ, .done) ∧
      Stored τ (ts.take pos.toNat ++ t :: ts.drop pos.toNat)) ∧
  i.toNat ∉ shiftWrites (σ.2.size - pos).toNat σ.2.size

/-! ## The loop of `insert` -/

/-- What the loop writes, where it does not wrap. -/
theorem mem_shiftWrites {i : Nat} :
    ∀ {count : Nat} {movePos : UInt32}, count ≤ movePos.toNat →
      (i ∈ shiftWrites count movePos ↔ movePos.toNat - count < i ∧ i ≤ movePos.toNat) := by
  intro count
  induction count with
  | zero =>
      intro movePos _
      simp only [shiftWrites, List.not_mem_nil, false_iff]
      omega
  | succ count ih =>
      intro movePos hcount
      have hpred : (movePos - 1).toNat = movePos.toNat - 1 := toNat_pred rfl (by omega)
      rw [shiftWrites, List.mem_cons, ih (by omega), hpred]
      omega

/-- An element the loop does not write is what it was. -/
theorem insertLoop_frame {i : Nat} :
    ∀ {count : Nat} {movePos : UInt32} {h : Arrays T},
      insertLoop p count movePos h = some h' → i ∉ shiftWrites count movePos →
      h'.get p i = h.get p i := by
  intro count
  induction count with
  | zero =>
      intro movePos h hloop _
      cases hloop
      rfl
  | succ count ih =>
      intro movePos h hloop hi
      rw [shiftWrites, List.mem_cons, not_or] at hi
      unfold insertLoop at hloop
      obtain ⟨t, -, hloop⟩ := Option.bind_eq_some_iff.mp hloop
      obtain ⟨h1, hset, hloop⟩ := Option.bind_eq_some_iff.mp hloop
      rw [ih hloop hi.2, Arrays.get_of_set hset hi.1]

/-! ## A full vector -/

/-- The growth code frees the array there was. -/
theorem grow_frees {v : Vector} (hgrow : v.grow h = some τ) (hnull : v.element ≠ null) (i : Nat) :
    τ.1.get v.element i = none := by
  unfold grow at hgrow
  obtain ⟨h1, -, hgrow⟩ := Option.bind_eq_some_iff.mp hgrow
  obtain ⟨⟨h2, v2⟩, hfree, hgrow⟩ := Option.bind_eq_some_iff.mp hgrow
  unfold freeMemory at hfree
  rw [if_pos hnull] at hfree
  obtain ⟨h3, hfreed, he⟩ := Option.bind_eq_some_iff.mp hfree
  cases he
  cases hgrow
  obtain ⟨-, -, hcell, -⟩ := Heap.free_some hfreed
  simp only [Arrays.get, Heap.load, hcell, Function.update_self, Option.bind_eq_bind,
    Option.bind_none]

namespace Stored

variable {i pos : UInt32}

theorem element_ne_null (s : Stored σ ts) (hts : ts ≠ []) : σ.2.element ≠ null := by
  rcases s.begins with ⟨-, -, hnil⟩ | ⟨rest, hcell, -⟩
  · exact absurd hnil hts
  · exact Heap.ne_null _ hcell

/-- A full vector does not append its own element. -/
theorem appendRef_full (s : Stored σ ts) (hi : i.toNat < ts.length)
    (hfull : σ.2.capacity.toNat ≤ ts.length) :
    σ.2.appendRef build σ.1 (σ.2.elementAt i) ≠ some (τ, .done) := by
  have hnull : σ.2.element ≠ null := by
    refine s.element_ne_null ?_
    rintro rfl
    cases hi
  intro hcall
  unfold appendRef at hcall
  split at hcall
  · cases hcall
  · by_cases hgrows : σ.2.size + 1 > σ.2.capacity
    · -- the reference leads into the array that was freed
      simp only [if_pos hgrows] at hcall
      obtain ⟨⟨h', v'⟩, hgrow, hcall⟩ := Option.bind_eq_some_iff.mp hcall
      obtain ⟨t, hread, -⟩ := Option.bind_eq_some_iff.mp hcall
      have hnone : h'.get σ.2.element i.toNat = none := grow_frees hgrow hnull _
      have hread : h'.get σ.2.element i.toNat = some t := hread
      rw [hnone] at hread
      cases hread
    · -- the size wrapped, so nothing grew
      simp only [if_neg hgrows] at hcall
      obtain ⟨⟨h', v'⟩, hgrow, hcall⟩ := Option.bind_eq_some_iff.mp hcall
      cases hgrow
      obtain ⟨t, -, hcall⟩ := Option.bind_eq_some_iff.mp hcall
      obtain ⟨h'', hset, -⟩ := Option.bind_eq_some_iff.mp hcall
      rw [s.begins.set_none (by rw [s.counted]; exact hfull)] at hset
      cases hset

/-! ## A vector with room -/

/-- With room for one more element nothing grows. -/
theorem not_full (s : Stored σ ts) (hroom : ts.length < σ.2.capacity.toNat) :
    ¬ σ.2.size + 1 > σ.2.capacity ∧ (σ.2.size + 1).toNat = ts.length + 1 := by
  have hlt := UInt32.toNat_lt σ.2.capacity
  have hsize : (σ.2.size + 1).toNat = ts.length + 1 := by
    rw [UInt32.toNat_add, s.counted, UInt32.toNat_one]
    omega
  refine ⟨?_, hsize⟩
  show ¬ σ.2.capacity < σ.2.size + 1
  rw [UInt32.lt_iff_toNat_lt, hsize]
  omega

theorem appendRef_room (s : Stored σ ts) (hroom : ts.length < σ.2.capacity.toNat) {t : T}
    (ht : ts[i.toNat]? = some t) :
    ∃ τ, σ.2.appendRef build σ.1 (σ.2.elementAt i) = some (τ, .done) ∧ Stored τ (ts ++ [t]) := by
  obtain ⟨hfull, hsize⟩ := s.not_full hroom
  have hread : (σ.2.elementAt i).read σ.1 = some t := by
    rw [← ht]
    exact s.begins.get (List.getElem?_eq_some_iff.mp ht).1
  obtain ⟨h', hset, hbegins, -⟩ := s.begins.push hroom t
  rw [← s.counted] at hset
  refine ⟨(h', { σ.2 with size := σ.2.size + 1 }), ?_, hbegins, ?_⟩
  · simp only [appendRef, hfull, false_and, if_false, hread, hset, Option.bind_eq_bind,
      Option.bind_some, Option.pure_def]
  · rw [List.length_append]
    exact hsize

/-- `insert` shifts the elements behind the position, and leaves a cell for the new one. -/
theorem insertRef_room (s : Stored σ ts) (hroom : ts.length < σ.2.capacity.toNat) {t : T}
    (ht : ts[i.toNat]? = some t) (hpos : pos.toNat ≤ ts.length)
    (hi : i.toNat ∉ shiftWrites (σ.2.size - pos).toNat σ.2.size) :
    ∃ τ, σ.2.insertRef build σ.1 pos (σ.2.elementAt i) = some (τ, .done) ∧
      Stored τ (ts.take pos.toNat ++ t :: ts.drop pos.toNat) := by
  obtain ⟨hfull, hsize⟩ := s.not_full hroom
  have hguard : ¬ pos > σ.2.size + 1 := by
    show ¬ σ.2.size + 1 < pos
    rw [UInt32.lt_iff_toNat_lt, hsize]
    omega
  obtain ⟨h1, hloop, hput⟩ := s.shift hroom hpos
  obtain ⟨h2, hset, hbegins⟩ := hput t
  have hread : (σ.2.elementAt i).read h1 = some t := by
    show h1.get σ.2.element i.toNat = some t
    rw [insertLoop_frame hloop hi, ← ht]
    exact s.begins.get (List.getElem?_eq_some_iff.mp ht).1
  refine ⟨(h2, { σ.2 with size := σ.2.size + 1 }), ?_, hbegins, ?_⟩
  · simp only [insertRef, hguard, if_false, hfull, false_and, hloop, hread, hset,
      Option.bind_eq_bind, Option.bind_some, Option.pure_def]
  · rw [length_putIn]
    exact hsize

end Stored

/-- **Own elements.** A vector takes one of its own elements at `i` exactly when it has room
for one more, and the element does not lie behind the position. -/
theorem vector_alias_iff (s : Stored σ ts) {i pos : UInt32} (hi : i.toNat < ts.length)
    (hpos : pos.toNat ≤ ts.length) :
    AliasRight build σ ts i pos ↔ ts.length < σ.2.capacity.toNat ∧ i.toNat ≤ pos.toNat := by
  have hcount : (σ.2.size - pos).toNat = ts.length - pos.toNat := by
    have hle : pos ≤ σ.2.size := by
      rw [UInt32.le_iff_toNat_le, s.counted]
      exact hpos
    rw [UInt32.toNat_sub_of_le _ _ hle, s.counted]
  have hwrites : i.toNat ∈ shiftWrites (σ.2.size - pos).toNat σ.2.size ↔ pos.toNat < i.toNat := by
    rw [mem_shiftWrites (by rw [hcount, s.counted]; omega), hcount, s.counted]
    omega
  constructor
  · rintro ⟨⟨t, -, ⟨τ, happend, -⟩, -⟩, hi'⟩
    rw [hwrites, Nat.not_lt] at hi'
    refine ⟨?_, hi'⟩
    by_contra hfull
    exact s.appendRef_full hi (Nat.not_lt.mp hfull) happend
  · rintro ⟨hroom, hle⟩
    have ht : ts[i.toNat]? = some ts[i.toNat] := List.getElem?_eq_getElem hi
    have hi' := mt hwrites.mp (Nat.not_lt.mpr hle)
    exact ⟨⟨_, ht, s.appendRef_room hroom ht, s.insertRef_room hroom ht hpos hi'⟩, hi'⟩

/-- One of two places taken: the element can be appended, and inserted in front of itself. -/
theorem vector_alias_iff_room :
    ∃ σ, (edits .release Nat).Reachable σ ∧ Stored σ [7] ∧ AliasRight .release σ [7] 0 0 := by
  obtain ⟨σ, hreach, s, hcapacity, -⟩ :=
    reachable_filled (T := Nat) .release (n := 2) (by decide) [7] (by decide)
  refine ⟨σ, hreach, s, (vector_alias_iff s (by decide) (by decide)).mpr ⟨?_, by decide⟩⟩
  rw [hcapacity]
  decide

/-- The one element of a full vector is read out of freed memory. -/
theorem appends_freed_element :
    ∃ σ, (edits .release Nat).Reachable σ ∧ Stored σ [7] ∧
      (∀ τ, σ.2.appendRef .release σ.1 (σ.2.elementAt 0) ≠ some (τ, .done)) ∧
      ¬ AliasRight .release σ [7] 0 0 := by
  obtain ⟨σ, hreach, s, hcapacity, -⟩ :=
    reachable_filled (T := Nat) .release (n := 1) (by decide) [7] (by decide)
  have hnone : ∀ τ, σ.2.appendRef .release σ.1 (σ.2.elementAt 0) ≠ some (τ, .done) := by
    intro τ
    refine s.appendRef_full (by decide) ?_
    rw [hcapacity]
    decide
  refine ⟨σ, hreach, s, hnone, ?_⟩
  rintro ⟨⟨t, -, ⟨τ, happend, -⟩, -⟩, -⟩
  exact hnone τ happend

end LearnSpace.DataStructure.Vector
