import LearnSpace.Keel.BitTable
import Mathlib.Algebra.Group.Int.Defs
import Mathlib.Data.List.FinRange

/-!
# The descriptors of the TCP stack

`getFD`, `resetFD` and `initTCP` of `TCP/tcp.c` over the static table `FDSET`, a bit for each
descriptor. A `char` is promoted to `int` before a bitwise operation and cut down again by the
assignment, so the operations are those of 8 and 32 bits.

`none` is undefined behaviour: a shift by 32 or more, and the end of a function that is to
return a value reached without a `return`.
-/

namespace LearnSpace.Tcp

open Keel Function

/-! ## The code -/

abbrev FDSetSize : Nat := 20480

abbrev FDCOUNT : Nat := FDSetSize * 8

/-- `FDSET`, of type `char[FDSetSize]`. -/
abbrev FdSet : Type := Fin FDSetSize → BitVec 8

/-- `1 << pos` -/
def oneShiftedBy (pos : UInt32) : Option (BitVec 32) :=
  if pos.toNat < 32 then some (1#32 <<< pos.toNat) else none

/-- The condition of the `if` in `getFD`. In `FDSET[index] & (1 << pos) == 0` the comparison
binds more tightly than `&`. -/
def fdTest (FDSET : FdSet) (i : Fin FDCOUNT) : Bool :=
  let equal : BitVec 32 := if 1#32 <<< (i % 8 : Nat) = 0#32 then 1#32 else 0#32
  (FDSET (BitTable.index i)).signExtend 32 &&& equal != 0#32

/-- `FDSET[index] = FDSET[index] | (1 << pos)` -/
def markFD (FDSET : FdSet) (i : Fin FDCOUNT) : FdSet :=
  update FDSET (BitTable.index i)
    (((FDSET (BitTable.index i)).signExtend 32 ||| (1#32 <<< (i % 8 : Nat))).setWidth 8)

/-- `getFD()`: the loop over the descriptors, and no `return` behind it. -/
def getFD (FDSET : FdSet) : Option (FdSet × Int32) := do
  let i ← (List.finRange FDCOUNT).find? (fdTest FDSET)
  return (markFD FDSET i, Int32.ofNat i)

/-- `resetFD(fd)`. The quotient and the remainder are those of `int`, then converted. -/
def resetFD (FDSET : FdSet) (fd : Int32) : Option FdSet :=
  let index : UInt32 := (fd / 8).toUInt32
  let pos : UInt32 := (fd % 8).toUInt32
  if h : index.toNat < FDSetSize then do
    let bit ← oneShiftedBy pos
    return update FDSET ⟨index.toNat, h⟩ (((FDSET ⟨index.toNat, h⟩).signExtend 32 ^^^ bit).setWidth 8)
  else some FDSET

/-- The `memset` of `initTCP()`. -/
def initFDSET : FdSet := fun _ => 0#8

/-- A call, of `getFD` or of `resetFD`. -/
inductive FdCall where
  | getFD
  | resetFD (fd : Int32)
  deriving DecidableEq

/-- The table after a call and what it returned. -/
def FdCall.exec (FDSET : FdSet) : FdCall → Option (FdSet × Option Int32)
  | .getFD => (Tcp.getFD FDSET).map fun r => (r.1, some r.2)
  | .resetFD fd => (Tcp.resetFD FDSET fd).map fun t => (t, none)

/-! ## What the calls do -/

/-- The comparison is false for every descriptor, and so is its conjunction with anything. -/
theorem fdTest_eq_false (FDSET : FdSet) (i : Fin FDCOUNT) : fdTest FDSET i = false := by
  have hshift : ∀ p : Fin 8, 1#32 <<< (p : Nat) ≠ 0#32 := by decide
  have hne := hshift ⟨i % 8, Nat.mod_lt _ (by decide)⟩
  simp only [fdTest, if_neg hne]
  simp

/-- `getFD` never comes to a `return`. -/
theorem getFD_eq_none (FDSET : FdSet) : getFD FDSET = none := by
  have hfind : (List.finRange FDCOUNT).find? (fdTest FDSET) = none := by
    apply List.find?_eq_none.mpr
    intro i _
    rw [fdTest_eq_false]
    simp
  simp [getFD, hfind]

/-- The conversion of an `int` to `uint32_t`. -/
theorem toNat_toUInt32 (x : Int32) :
    (x.toUInt32.toNat : Int) = if 0 ≤ x.toInt then x.toInt else x.toInt + 2 ^ 32 := by
  have heq : x.toInt = if 2 * x.toUInt32.toNat < 2 ^ 32 then (x.toUInt32.toNat : Int)
      else (x.toUInt32.toNat : Int) - (2 ^ 32 : Nat) := BitVec.toInt_eq_toNat_cond x.toBitVec
  have hlt : x.toUInt32.toNat < 2 ^ 32 := x.toUInt32.toNat_lt
  split at heq <;> split <;> omega

/-- The quotient of `int` is rounded towards zero. -/
theorem toInt_div_eight (fd : Int32) :
    (fd / 8).toInt = if 0 ≤ fd.toInt then fd.toInt / 8 else -(-fd.toInt / 8) := by
  rw [Int32.toInt_div_of_ne_right fd 8 (by decide)]
  show fd.toInt.tdiv 8 = _
  split
  · exact Int.tdiv_eq_ediv_of_nonneg ‹_›
  · have hneg : (-fd.toInt).tdiv 8 = -fd.toInt / 8 := Int.tdiv_eq_ediv_of_nonneg (by omega)
    rw [Int.neg_tdiv] at hneg
    omega

/-- The remainder belongs to that quotient. -/
theorem toInt_mod_eight (fd : Int32) : (fd % 8).toInt = fd.toInt - 8 * (fd / 8).toInt := by
  have hsum := Int.mul_tdiv_add_tmod fd.toInt 8
  rw [Int32.toInt_mod, Int32.toInt_div_of_ne_right fd 8 (by decide)]
  show fd.toInt.tmod 8 = fd.toInt - 8 * fd.toInt.tdiv 8
  omega

/-- A descriptor whose byte is not in the table. -/
def Outside (fd : Int32) : Prop := fd.toInt ≤ -8 ∨ FDCOUNT ≤ fd.toInt

instance (fd : Int32) : Decidable (Outside fd) := inferInstanceAs (Decidable (_ ∨ _))

theorem resetFD_outside (FDSET : FdSet) {fd : Int32} (h : Outside fd) :
    resetFD FDSET fd = some FDSET := by
  have hdiv := toInt_div_eight fd
  have hindex := toNat_toUInt32 (fd / 8)
  have hsize : FDSetSize = 20480 := rfl
  have hcount : FDCOUNT = 163840 := rfl
  have hle : FDSetSize ≤ (fd / 8).toUInt32.toNat := by
    have hmin := fd.le_toInt
    unfold Outside at h
    split at hindex <;> omega
  unfold resetFD
  exact dif_neg (Nat.not_lt.mpr hle)

/-- From -7 to -1 the byte is the first one, and the shift is undefined. -/
theorem resetFD_negative (FDSET : FdSet) {fd : Int32} (h : -8 < fd.toInt) (hneg : fd.toInt < 0) :
    resetFD FDSET fd = none := by
  have hdiv := toInt_div_eight fd
  have hmod := toInt_mod_eight fd
  have hindex := toNat_toUInt32 (fd / 8)
  have hpos := toNat_toUInt32 (fd % 8)
  have hsize : FDSetSize = 20480 := rfl
  have hcount : FDCOUNT = 163840 := rfl
  have hlt : (fd / 8).toUInt32.toNat < FDSetSize := by
    split at hindex <;> omega
  have hshift : ¬ (fd % 8).toUInt32.toNat < 32 := by
    split at hpos <;> omega
  simp only [resetFD, hlt, dif_pos, oneShiftedBy, hshift, if_false]
  rfl

/-- The descriptor as a number of the table. -/
def slot (fd : Int32) (h : 0 ≤ fd.toInt) (h' : fd.toInt < FDCOUNT) : Fin FDCOUNT :=
  ⟨fd.toInt.toNat, (Int.toNat_lt h).mpr h'⟩

/-- What the exclusive or of the promoted byte leaves in the low eight bits. -/
theorem xor_promoted (b : BitVec 8) (p : Nat) :
    (b.signExtend 32 ^^^ (1#32 <<< p)).setWidth 8 = b ^^^ (1#8 <<< p) := by
  apply BitVec.eq_of_getLsbD_eq
  intro q hq
  simp [BitVec.getLsbD_signExtend, hq]
  omega

/-- In the table the bit is flipped. -/
theorem resetFD_inside (FDSET : FdSet) {fd : Int32} (h : 0 ≤ fd.toInt)
    (h' : fd.toInt < FDCOUNT) :
    resetFD FDSET fd = some (BitTable.flip FDSET (slot fd h h')) := by
  have hdiv := toInt_div_eight fd
  have hmod := toInt_mod_eight fd
  have hindex := toNat_toUInt32 (fd / 8)
  have hpos := toNat_toUInt32 (fd % 8)
  have hbyte : (fd / 8).toUInt32.toNat = fd.toInt.toNat / 8 := by
    split at hindex <;> omega
  have hbit : (fd % 8).toUInt32.toNat = fd.toInt.toNat % 8 := by
    split at hpos <;> omega
  have hsize : FDSetSize = 20480 := rfl
  have hcount : FDCOUNT = 163840 := rfl
  have hlt : fd.toInt.toNat / 8 < FDSetSize := by omega
  have hshift : fd.toInt.toNat % 8 < 32 := by omega
  simp only [resetFD, hbyte, hlt, dif_pos, oneShiftedBy, hbit, hshift, if_true]
  rw [Option.bind_eq_bind, Option.bind_some, xor_promoted]
  rfl

/-! ## What they are to do -/

/-- Descriptor `i` is marked in the table. -/
def Allocated (FDSET : FdSet) (i : Fin FDCOUNT) : Prop := BitTable.holds FDSET i = true

/-- `fd` is the least descriptor that is not allocated, and is allocated in `FDSET'`; or none
is left, `fd` is no descriptor, and the allocated ones are the same. -/
def TakesLeast (FDSET : FdSet) (fd : Int32) (FDSET' : FdSet) : Prop :=
  (∃ i : Fin FDCOUNT, fd.toInt = (i : Nat) ∧ ¬ Allocated FDSET i ∧ (∀ j < i, Allocated FDSET j) ∧
    ∀ j, Allocated FDSET' j ↔ j = i ∨ Allocated FDSET j) ∨
  ((∀ i, Allocated FDSET i) ∧ (fd.toInt < 0 ∨ FDCOUNT ≤ fd.toInt) ∧
    ∀ j, Allocated FDSET' j ↔ Allocated FDSET j)

/-- `fd` is free in `FDSET'`, and for every other descriptor nothing has changed. -/
def Frees (FDSET : FdSet) (fd : Int32) (FDSET' : FdSet) : Prop :=
  ∀ i : Fin FDCOUNT, Allocated FDSET' i ↔ fd.toInt ≠ (i : Nat) ∧ Allocated FDSET i

/-- The call has a defined behaviour, and it is the one of an allocator. -/
def FdCall.Right (FDSET : FdSet) : FdCall → Prop
  | .getFD => ∃ FDSET' fd, Tcp.getFD FDSET = some (FDSET', fd) ∧ TakesLeast FDSET fd FDSET'
  | .resetFD fd => ∃ FDSET', Tcp.resetFD FDSET fd = some FDSET' ∧ Frees FDSET fd FDSET'

/-- The descriptors handed out and not yet released, behind a call that returned `out`. -/
def FdCall.handed (fds : List Int32) (out : Option Int32) : FdCall → List Int32
  | .getFD => fds ++ out.toList.filter fun fd => 0 ≤ fd.toInt ∧ fd.toInt < (FDCOUNT : Int)
  | .resetFD fd => fds.filter (· ≠ fd)

/-- Every call of the run is right where it is made, and no descriptor is handed out twice
without having been released. -/
def Allocates : FdSet → List Int32 → List FdCall → Prop
  | _, fds, [] => fds.Nodup
  | FDSET, fds, call :: calls => fds.Nodup ∧ call.Right FDSET ∧
      ∀ FDSET' out, call.exec FDSET = some (FDSET', out) →
        Allocates FDSET' (call.handed fds out) calls

/-! ## When they do it -/

/-- A flipped bit frees its descriptor if that was allocated. -/
theorem frees_flip_iff (FDSET : FdSet) {fd : Int32} (h : 0 ≤ fd.toInt)
    (h' : fd.toInt < FDCOUNT) :
    Frees FDSET fd (BitTable.flip FDSET (slot fd h h')) ↔ Allocated FDSET (slot fd h h') := by
  have hslot : ∀ i : Fin FDCOUNT, fd.toInt ≠ (i : Nat) ↔ i ≠ slot fd h h' := by
    intro i
    rw [not_iff_not, Fin.ext_iff]
    simp only [slot]
    omega
  unfold Frees Allocated
  simp only [BitTable.flip_holds, hslot]
  constructor
  · intro hfrees
    simpa using hfrees (slot fd h h')
  · intro hallocated i
    by_cases hi : i = slot fd h h'
    · simp [hi, hallocated]
    · simp [hi]

/-- A call is right exactly if it is a `resetFD` of an allocated descriptor, or of a number
whose byte is not in the table. -/
theorem right_iff (FDSET : FdSet) (call : FdCall) : call.Right FDSET ↔
    ∃ fd, call = .resetFD fd ∧
      (Outside fd ∨ ∃ i : Fin FDCOUNT, fd.toInt = (i : Nat) ∧ Allocated FDSET i) := by
  cases call with
  | getFD => simp [FdCall.Right, getFD_eq_none]
  | resetFD fd =>
      simp only [FdCall.Right, FdCall.resetFD.injEq, exists_eq_left']
      by_cases hout : Outside fd
      · rw [resetFD_outside FDSET hout]
        constructor
        · intro _
          exact .inl hout
        · intro _
          refine ⟨FDSET, rfl, ?_⟩
          intro i
          have hne : fd.toInt ≠ (i : Nat) := by
            have hi : (i : Nat) < FDCOUNT := i.isLt
            unfold Outside at hout
            omega
          exact (and_iff_right hne).symm
      · by_cases hneg : fd.toInt < 0
        · have hgt : -8 < fd.toInt := by
            unfold Outside at hout
            omega
          rw [resetFD_negative FDSET hgt hneg]
          constructor
          · intro ⟨_, heq, _⟩
            cases heq
          · intro hor
            rcases hor with hout' | ⟨i, hi, _⟩
            · exact absurd hout' hout
            · omega
        · have h : 0 ≤ fd.toInt := Int.not_lt.mp hneg
          have h' : fd.toInt < FDCOUNT := by
            unfold Outside at hout
            omega
          rw [resetFD_inside FDSET h h']
          simp only [Option.some.injEq, exists_eq_left', frees_flip_iff]
          constructor
          · intro hallocated
            exact .inr ⟨slot fd h h', (Int.toNat_of_nonneg h).symm, hallocated⟩
          · intro hor
            rcases hor with hout' | ⟨i, hi, hallocated⟩
            · exact absurd hout' hout
            · have hslot : slot fd h h' = i := by
                apply Fin.ext
                simp only [slot]
                omega
              rwa [hslot]

/-- **The allocator.** A run from `initTCP` allocates and releases as it should exactly if
no call of it is `getFD` and every `resetFD` gets a number whose byte is not in the table.
(Nothing is allocated then, since only `getFD` is to allocate.) -/
theorem allocates_iff (calls : List FdCall) :
    Allocates initFDSET [] calls ↔ ∀ call ∈ calls, ∃ fd, call = .resetFD fd ∧ Outside fd := by
  have hfree : ∀ i, ¬ Allocated initFDSET i := by
    intro i
    simp [Allocated, BitTable.holds, initFDSET]
  induction calls with
  | nil => simp [Allocates]
  | cons call calls ih =>
      have hright : call.Right initFDSET ↔ ∃ fd, call = .resetFD fd ∧ Outside fd := by
        rw [right_iff]
        simp only [hfree, and_false, exists_false, or_false]
      have hrest : (∃ fd, call = .resetFD fd ∧ Outside fd) →
          ((∀ FDSET' out, call.exec initFDSET = some (FDSET', out) →
            Allocates FDSET' (call.handed [] out) calls) ↔ Allocates initFDSET [] calls) := by
        intro ⟨fd, hcall, hout⟩
        subst hcall
        simp [FdCall.exec, resetFD_outside initFDSET hout, FdCall.handed]
      unfold Allocates
      rw [hright, List.forall_mem_cons]
      constructor
      · intro ⟨_, hcall, hcalls⟩
        exact ⟨hcall, ih.mp ((hrest hcall).mp hcalls)⟩
      · intro ⟨hcall, hcalls⟩
        exact ⟨List.nodup_nil, hcall, (hrest hcall).mpr (ih.mpr hcalls)⟩

/-- Right behind `initTCP` a `getFD` has no defined behaviour, and a `resetFD(0)` of the free
descriptor 0 allocates it. -/
theorem allocates_breaks : ¬ Allocates initFDSET [] [.getFD] ∧
    ¬ Allocates initFDSET [] [.resetFD 0] ∧
    ((resetFD initFDSET 0).map fun FDSET => BitTable.holds FDSET 0) = some true := by
  refine ⟨?_, ?_, rfl⟩
  · intro h
    obtain ⟨_, heq, _⟩ := (right_iff _ _).mp h.2.1
    cases heq
  · intro h
    obtain ⟨fd, heq, hor⟩ := (right_iff _ _).mp h.2.1
    cases heq
    rcases hor with hout | ⟨i, _, hallocated⟩
    · exact absurd hout (by decide)
    · simp [Allocated, BitTable.holds, initFDSET] at hallocated

end LearnSpace.Tcp
