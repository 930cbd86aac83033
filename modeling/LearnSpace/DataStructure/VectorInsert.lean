import LearnSpace.DataStructure.VectorGrowth

/-!
# `insert` of the vector

The guard of `insert` rejects positions behind `m_size + 1`, not behind `m_size`. A position
just one behind the end passes, and the number of elements to shift, `m_size - pos`, wraps
to the largest number there is: the loop walks down to the front of the array and out of it.
At every other position `insert` does what it is for (`vector_insert_iff`).
-/

namespace LearnSpace.DataStructure.Vector

open Keel

variable {T : Type} {build : Build} {σ τ : State T} {ts : List T} {h : Arrays T}

/-- How often the loop of `insert` runs, behind the growth code. -/
def shiftCount (v : Vector) (pos : UInt32) : Nat := (v.size - pos).toNat

/-- What `insert` is for, in a vector that holds `ts`: the element gets its place, after as
many shifts as there are elements behind it, and no index outside the array is touched;
behind the end nothing changes. -/
def InsertRight (build : Build) (σ : State T) (ts : List T) (pos : UInt32) (t : T) : Prop :=
  (pos.toNat ≤ ts.length →
    (∃ τ, σ.2.insert build σ.1 pos t = some (τ, .done) ∧
      Stored τ (ts.take pos.toNat ++ t :: ts.drop pos.toNat)) ∧
    ∀ τ, makeRoom σ = some τ → τ.2.shiftCount pos = ts.length - pos.toNat) ∧
  (ts.length < pos.toNat → σ.2.insert build σ.1 pos t = some (σ, .done))

/-- A vector with the default step, below the bound of all containers. -/
structure Default (σ : State T) : Prop where
  step : σ.2.step = stepUint
  size : σ.2.size < maxSize

/-- Such a vector can grow. -/
theorem Default.grows (d : Default σ) (s : Stored σ ts) : σ.2.Grows := by
  intro hfull
  have hlength := (s.full_iff d.size).mp hfull
  have hlt := toNat_lt_maxSize d.size
  rw [s.counted, maxSize_toNat] at hlt
  rw [d.step, UInt32.lt_iff_toNat_lt, stepUint_toNat, hlength]
  exact ⟨Nat.succ_pos 9, by omega⟩

/-! ## A loop that leaves the array -/

/-- A loop that is to run more often than there are elements in front of it reads in front
of the array. -/
theorem insertLoop_leaves {p : Ptr} :
    ∀ {count k : Nat} {movePos : UInt32} {h : Arrays T} {a : List (Option T)},
      h.cell p = some a → a.length < 2 ^ 32 → movePos.toNat = k → k < count →
      insertLoop p count movePos h = none := by
  intro count k
  induction k generalizing count with
  | zero =>
      intro movePos h a hcell hsmall hpos hcount
      obtain ⟨n, rfl⟩ := Nat.exists_eq_add_one_of_ne_zero (Nat.ne_of_gt hcount)
      have hout : a.length ≤ (movePos - 1).toNat := by
        obtain rfl : movePos = 0 := eq_zero_iff_toNat.mpr hpos
        show a.length ≤ 2 ^ 32 - 1
        omega
      have hread : h.get p (movePos - 1).toNat = none := by
        simp only [Arrays.get, Heap.load, hcell, List.getElem?_eq_none hout,
          Option.bind_eq_bind, Option.bind_some, Option.bind_none]
      simp only [insertLoop, hread, Option.bind_eq_bind, Option.bind_none]
  | succ k ih =>
      intro movePos h a hcell hsmall hpos hcount
      obtain ⟨n, rfl⟩ := Nat.exists_eq_add_one_of_ne_zero (Nat.ne_of_gt (Nat.zero_lt_of_lt hcount))
      have hpred : (movePos - 1).toNat = k := toNat_pred hpos (Nat.succ_pos k)
      unfold insertLoop
      cases h.get p (movePos - 1).toNat with
      | none => rfl
      | some t =>
          cases hset : h.set p movePos.toNat t with
          | none => simp only [hset, Option.bind_eq_bind, Option.bind_some, Option.bind_none]
          | some h' =>
              simp only [hset, Option.bind_eq_bind, Option.bind_some]
              obtain ⟨b, hb, -, hcell'⟩ := Arrays.set_some hset
              obtain rfl : b = a := Option.some.inj (hb.symm.trans hcell)
              exact ih hcell' (by rwa [List.length_set]) hpred (Nat.lt_of_succ_lt_succ hcount)

/-! ## Where the element arrives -/

namespace Stored

variable {pos : UInt32}

/-- The growth code keeps the number of elements. -/
theorem makeRoom_size (s : Stored σ ts) (d : Default σ) (hmade : Vector.makeRoom σ = some τ) :
    Stored τ ts ∧ τ.2.size = σ.2.size := by
  obtain ⟨τ', hmade', hτ, -, hsize, -⟩ := s.makeRoom d.size (d.grows s)
  rw [hmade] at hmade'
  cases hmade'
  exact ⟨hτ, hsize⟩

/-- At a position of an element or just behind them. -/
theorem insert_inside (s : Stored σ ts) (d : Default σ) (hpos : pos.toNat ≤ ts.length) (t : T) :
    InsertRight build σ ts pos t := by
  have hpos' : pos ≤ σ.2.size := by
    rw [UInt32.le_iff_toNat_le, s.counted]
    exact hpos
  refine ⟨fun _ => ⟨s.insert_grows build d.size (d.grows s) hpos' t, ?_⟩, fun hlt => ?_⟩
  · intro τ hmade
    obtain ⟨hτ, hsize⟩ := s.makeRoom_size d hmade
    rw [shiftCount, UInt32.toNat_sub_of_le _ _ (hsize ▸ hpos'), hτ.counted]
  · exact absurd hpos (Nat.not_le_of_lt hlt)

/-- Further behind the end than by one the guard holds. -/
theorem insert_far (s : Stored σ ts) (d : Default σ) (hpos : ts.length + 1 < pos.toNat) (t : T) :
    InsertRight build σ ts pos t := by
  have hguard : pos > σ.2.size + 1 := by
    show σ.2.size + 1 < pos
    rw [UInt32.lt_iff_toNat_lt, s.toNat_succ_size d.size]
    exact hpos
  refine ⟨fun hle => by omega, fun _ => ?_⟩
  rw [Vector.insert, if_pos hguard]
  rfl

/-- Just one behind the end the guard does not hold, and the loop leaves the array. -/
theorem insert_behind (s : Stored σ ts) (d : Default σ) (hpos : pos.toNat = ts.length + 1)
    (t : T) : σ.2.insert build σ.1 pos t = none := by
  have hguard : ¬ pos > σ.2.size + 1 := by
    show ¬ σ.2.size + 1 < pos
    rw [UInt32.lt_iff_toNat_lt, s.toNat_succ_size d.size, hpos]
    exact Nat.lt_irrefl _
  obtain ⟨τ, hmade, hτ, hlt, hsize, -⟩ := s.makeRoom d.size (d.grows s)
  obtain ⟨rest, hcell, hlength⟩ := hτ.begins.cell (Nat.zero_lt_of_lt hlt)
  -- the number of elements to shift has wrapped
  have hcount : ts.length < (τ.2.size - pos).toNat := by
    have hbound := UInt32.toNat_lt pos
    have hcounted := hτ.counted
    rw [UInt32.toNat_sub, hpos, hcounted]
    omega
  have hloop : insertLoop τ.2.element (τ.2.size - pos).toNat τ.2.size τ.1 = none := by
    refine insertLoop_leaves hcell ?_ hτ.counted hcount
    rw [List.length_append, List.length_map, hlength]
    exact UInt32.toNat_lt _
  have hgrown : (if σ.2.size + 1 > σ.2.capacity then σ.2.grow σ.1 else some (σ.1, σ.2)) =
      some τ := hmade
  simp only [Vector.insert, hguard, if_false, s.not_stops d.size, Option.pure_def, hgrown,
    Option.bind_eq_bind, Option.bind_some, hloop, Option.bind_none]

end Stored

/-- **Insertion into a vector.** With the default step and below the size limit `insert`
does what it is for, except at the position just one behind the end. -/
theorem vector_insert_iff (s : Stored σ ts) (d : Default σ) (pos : UInt32) (t : T) :
    InsertRight build σ ts pos t ↔ pos.toNat ≠ ts.length + 1 := by
  constructor
  · rintro ⟨-, hright⟩ hpos
    have hnone : σ.2.insert build σ.1 pos t = none := s.insert_behind d hpos t
    rw [hright (by omega)] at hnone
    cases hnone
  · intro hne
    by_cases hpos : pos.toNat ≤ ts.length
    · exact s.insert_inside d hpos t
    · exact s.insert_far d (by omega) t

/-- Into a vector without elements one goes at position 0, and none at position 1. -/
theorem vector_insert_iff_empty :
    ∃ σ, (edits .debug Nat).Reachable σ ∧ Stored σ [] ∧ InsertRight .debug σ [] 0 7 ∧
      ¬ InsertRight .debug σ [] 1 7 := by
  obtain ⟨σ, hreach, s, -, hstep⟩ :=
    reachable_filled (T := Nat) .debug (n := 0) (by decide) [] (by decide)
  have d : Default σ := ⟨hstep, by rw [UInt32.lt_iff_toNat_lt, s.counted]; exact maxSize_pos⟩
  refine ⟨σ, hreach, s, (vector_insert_iff s d 0 7).mpr (by decide), ?_⟩
  rw [vector_insert_iff s d 1 7]
  decide

/-- One behind the end of a vector without elements nothing is inserted, and the array is
left. -/
theorem insert_runs_away :
    ∃ σ, (edits .release Nat).Reachable σ ∧ Stored σ [] ∧ Default σ ∧
      σ.2.insert .release σ.1 1 7 = none ∧ ¬ InsertRight .release σ [] 1 7 := by
  obtain ⟨σ, hreach, s, -, hstep⟩ :=
    reachable_filled (T := Nat) .release (n := 0) (by decide) [] (by decide)
  have d : Default σ := ⟨hstep, by rw [UInt32.lt_iff_toNat_lt, s.counted]; exact maxSize_pos⟩
  have hnone : σ.2.insert .release σ.1 1 7 = none := s.insert_behind d rfl 7
  refine ⟨σ, hreach, s, d, hnone, ?_⟩
  rintro ⟨-, hright⟩
  rw [hright (by decide)] at hnone
  cases hnone

end LearnSpace.DataStructure.Vector
