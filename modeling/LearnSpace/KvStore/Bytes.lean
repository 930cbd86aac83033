import Mathlib.Algebra.Group.Nat.Defs
import LearnSpace.Keel.Search
import LearnSpace.Keel.While
import LearnSpace.KvStore.ByteArrayValue

/-!
# One byte array by itself

The parser works on arrays nobody else shares. Such an array is its bytes and
the capacity of its buffer, whose tail is zero; `Pool.Holds` says that a
variable of the pool is such an array, and the methods that build arrays here
are what the methods of the pool make of a variable (`construct_holds`,
`appendBytes_holds`, `constructPtrLen_holds`, `remove_holds`).
-/

namespace LearnSpace.KvStore

open Keel Function

/-- What the methods of an array can end in instead of returning: a read past
the buffer, `std::out_of_range`, or the end of a function that returns a value
without a `return`. -/
inductive Fault
  | overrun
  | outOfRange
  | offTheEnd
  deriving DecidableEq, Repr

/-- The bytes of an array, and the capacity they fit in. -/
structure Bytes where
  content : List Byte
  capacity : Nat
  fits : content.length ≤ capacity
  deriving DecidableEq

/-- Subtraction in `size_t`. -/
def sub64 (a b : Nat) : Nat := if b ≤ a then a - b else a + 2 ^ 64 - b

namespace Bytes

def size (B : Bytes) : Nat := B.content.length

/-- The buffer behind `_data.get()`. -/
def memory (B : Bytes) : List Byte := Pool.filled B.content B.capacity

theorem memory_eq (B : Bytes) :
    B.memory = B.content ++ List.replicate (B.capacity - B.size) 0 := rfl

theorem length_memory (B : Bytes) : B.memory.length = B.capacity := Pool.length_filled B.fits

/-- `CMByteArray()`. -/
def new : Bytes := ⟨[], defInitCapacity, Nat.zero_le _⟩

/-- `append(const char* byte, size_t len)`. -/
def append (B : Bytes) (byte : List Byte) : Bytes where
  content := B.content ++ byte
  capacity := grown B.capacity B.size byte.length
  fits := by
    rw [List.length_append]
    exact le_grown B.fits _

/-- A fresh array that bytes are appended to has room behind them, unless they
just fill the initial capacity. -/
theorem fresh_room {body : List Byte} (h : body.length ≠ defInitCapacity) :
    (new.append body).size < (new.append body).capacity := by
  show body.length < grown defInitCapacity 0 body.length
  have hstep : defInitCapacity + body.length ≤ stepCapacity (defInitCapacity + body.length) :=
    Double.le_timesThreeHalves _
  have hpos : 0 < defInitCapacity := by decide
  rw [grown]
  split <;> omega

/-- `CMByteArray(const char* str, size_t len)`. -/
def ofPtrLen (str : List Byte) : Bytes :=
  append ⟨[], str.length + 1, Nat.zero_le _⟩ str

/-- `remove` at a position that does not throw. -/
def remove (B : Bytes) (pos len : Nat) (hpos : pos ≤ B.size) : Bytes where
  content := B.content.take pos ++ B.content.drop (pos + len)
  capacity := B.capacity
  fits := by
    have hfits := B.fits
    unfold size at hpos
    rw [List.length_append, List.length_take, List.length_drop]
    omega

/-- `find`: a position from `startPos` on at which the bytes of `value` stand. -/
def find (B value : Bytes) (startPos : Nat) : Except Fault (Option Nat) :=
  match scan value.content (B.memory.drop startPos) (B.size - startPos) with
  | none => .error .overrun
  | some r => .ok (r.map (startPos + ·))

/-- The answer of `find` is the first occurrence in the rest of the buffer. -/
theorem find_some {B value : Bytes} {startPos index : Nat} (hvalue : 0 < value.size)
    (h : B.find value startPos = .ok (some index)) :
    ∃ i, index = startPos + i ∧ i < B.size - startPos ∧
      firstOcc value.content (B.memory.drop startPos) = some i := by
  rw [find] at h
  split at h
  · cases h
  · rename_i r hscan
    cases r with
    | none => cases h
    | some i =>
        obtain ⟨hlt, hocc⟩ := scan_found (List.length_pos_iff.mp hvalue) hscan
        exact ⟨i, (Option.some.inj (Except.ok.inj h)).symm, hlt, hocc⟩

/-- One iteration of `split`, from the position and the pieces so far. -/
def splitBody (B value : Bytes) :
    Nat × List Bytes → Except Fault ((Nat × List Bytes) ⊕ List Bytes)
  | (pos, ret) => do
    match ← B.find value pos with
    | none => return .inr ret
    | some index =>
      let temp := ofPtrLen ((B.memory.drop pos).take (index - pos))
      return .inl (index + value.size, ret ++ [temp])

/-- What an iteration of `split` does is decided by `find`. -/
theorem splitBody_eq (B value : Bytes) (s : Nat × List Bytes) :
    B.splitBody value s = match B.find value s.1 with
      | .error e => .error e
      | .ok none => .ok (.inr s.2)
      | .ok (some index) => .ok (.inl (index + value.size,
          s.2 ++ [ofPtrLen ((B.memory.drop s.1).take (index - s.1))])) := by
  obtain ⟨pos, ret⟩ := s
  rw [splitBody]
  cases B.find value pos with
  | error e => rfl
  | ok r => cases r <;> rfl

/-- The position moves behind the piece and its separator. -/
theorem splitBody_next {B value : Bytes} {s s' : Nat × List Bytes}
    (h : B.splitBody value s = .ok (.inl s')) :
    ∃ index, B.find value s.1 = .ok (some index) ∧
      s' = (index + value.size,
        s.2 ++ [ofPtrLen ((B.memory.drop s.1).take (index - s.1))]) := by
  rw [splitBody_eq] at h
  split at h
  · cases h
  · cases h
  · rename_i index hfind
    cases h
    exact ⟨index, hfind, rfl⟩

theorem splitBody_leave {B value : Bytes} {s : Nat × List Bytes} {arrays : List Bytes}
    (h : B.splitBody value s = .ok (.inr arrays)) :
    B.find value s.1 = .ok none ∧ arrays = s.2 := by
  rw [splitBody_eq] at h
  split at h
  · cases h
  · rename_i hfind
    cases h
    exact ⟨hfind, rfl⟩
  · cases h

theorem splitBody_fault {B value : Bytes} {s : Nat × List Bytes} {e : Fault}
    (h : B.splitBody value s = .error e) : B.find value s.1 = .error e := by
  rw [splitBody_eq] at h
  split at h
  · rename_i hfind
    cases h
    exact hfind
  · cases h
  · cases h

/-- The loop of `split`. With an empty separator the loop of the source does
not come to an end. -/
def splitLoop (B value : Bytes) (hvalue : 0 < value.size) :
    While (Nat × List Bytes) Fault (List Bytes) where
  body := B.splitBody value
  measure s := B.size - s.1
  decreases s s' h := by
    obtain ⟨index, hfind, rfl⟩ := splitBody_next h
    obtain ⟨i, rfl, hlt, _⟩ := find_some hvalue hfind
    show B.size - (s.1 + i + value.size) < B.size - s.1
    omega

/-- `split`: the pieces that `value` ends. -/
def split (B value : Bytes) (hvalue : 0 < value.size) : Except Fault (List Bytes) :=
  (B.splitLoop value hvalue).run (0, [])

/-- `chop`: after `remove` the function ends without a `return`. -/
def chop (B : Bytes) (count : Nat) : Except Fault Bytes :=
  if hpos : sub64 B.size count ≤ B.size then
    let _ := B.remove (sub64 B.size count) (2 ^ 64 - 1) hpos
    .error .offTheEnd
  else .error .outOfRange

end Bytes

/-! ## The arrays as variables of the pool -/

namespace Pool

variable {ι : Type} {σ σ' : Pool ι} {x : ι} {B : Bytes}

/-- The variable `x` is the array `B`. -/
structure Holds (σ : Pool ι) (x : ι) (B : Bytes) : Prop where
  stored : σ.Stored x B.content
  capacity : σ.capacity x = B.capacity

variable [Fintype ι] [DecidableEq ι]

omit [DecidableEq ι] in
theorem Makes.holds (h : Makes x B.content B.capacity σ σ') : σ'.Holds x B :=
  ⟨h.stored, h.capacity⟩

theorem construct_holds (ho : σ.Others x) :
    ∃ σ', σ.construct x = some σ' ∧ σ'.Holds x .new ∧ Frame x σ σ' := by
  obtain ⟨σ', hexec, hm⟩ := constructCapacity_spec ho defInitCapacity
  exact ⟨σ', hexec, hm.holds, hm.frame⟩

theorem appendBytes_holds (ho : σ.Others x) (h : σ.Holds x B) (byte : List Byte) :
    ∃ σ', σ.appendBytes x (.bytes byte) byte.length = some (σ', .done) ∧
      σ'.Holds x (B.append byte) ∧ Frame x σ σ' := by
  obtain ⟨σ', hexec, hm⟩ := insertElement_spec ho h.stored (fun _ _ => read_bytes byte _)
  rw [h.capacity] at hm
  exact ⟨σ', hexec, hm.holds, hm.frame⟩

theorem constructPtrLen_holds (ho : σ.Others x) (str : List Byte) :
    ∃ σ', σ.constructPtrLen x (.bytes str) str.length = some (σ', .done) ∧
      σ'.Holds x (.ofPtrLen str) ∧ Frame x σ σ' := by
  obtain ⟨σ', hexec, hm⟩ := construct_insert_spec ho (str.length + 1) (read_bytes str)
  exact ⟨σ', hexec, hm.holds, hm.frame⟩

theorem remove_holds (ho : σ.Others x) (h : σ.Holds x B) {pos : Nat} (len : Nat)
    (hpos : pos ≤ B.size) :
    ∃ σ', σ.remove x pos len = some (σ', .done) ∧
      σ'.Holds x (B.remove pos len hpos) ∧ Frame x σ σ' := by
  obtain ⟨σ', hexec, hm⟩ := reomveElement_spec ho h.stored len hpos
  rw [h.capacity] at hm
  exact ⟨σ', hexec, hm.holds, hm.frame⟩

end Pool

end LearnSpace.KvStore
