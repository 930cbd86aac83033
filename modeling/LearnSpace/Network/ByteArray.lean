import Mathlib.Algebra.Group.Int.Defs
import LearnSpace.KvStore.ByteArray

/-!
# The byte array that counts by hand

`CMCode::CMByteArray`: the variables share their buffers, and with each buffer goes a
counter, an `int` of its own, that every method handles by hand. A method runs statement by
statement in `Option`: `none` is an access to memory that is not live, also behind the end
of a buffer, the overflow of a counter, or the conversion of a double that is no `uint`.

An overlapping `memcpy` is a `memmove`, and `delete` of a buffer that `new[]` made releases
it.
-/

namespace LearnSpace.Network

open Keel Function
open KvStore (Byte Source strlen readAt writeAt)

/-- The fields of a `CMByteArray`. -/
structure CMByteArray where
  buffer : Ptr := null
  bufferLen : Nat := 0
  size : Nat := 0
  useCount : Ptr

/-- The variables of type `CMByteArray` that are constructed, their buffers and their
counters. -/
structure State (ι : Type) where
  buffers : Heap (List Byte)
  counters : Heap Int
  var : ι → Option CMByteArray

/-- What a method gives back, or throws. -/
inductive Answer
  | done
  | badArrayNewLength
  deriving DecidableEq, Repr

/-- The next statement, behind one that may throw. -/
def andThen {ι : Type} (r : Option (State ι × Answer))
    (f : State ι → Option (State ι × Answer)) : Option (State ι × Answer) :=
  match r with
  | some (σ, .done) => f σ
  | r => r

/-- `uint` arithmetic wraps at this modulus. -/
def uintSize : Nat := 2 ^ 32

/-- The largest `int`. -/
def intMax : Int := 2 ^ 31 - 1

/-- `static_cast<uint>(n * m_step)`, where `m_step` is the double 1.5. -/
def stepped (n : Nat) : Option Nat :=
  if Double.timesThreeHalves n < uintSize then some (Double.timesThreeHalves n) else none

/-- `CountAdd`. -/
def countAdd (h : Heap Int) (p : Ptr) : Option (Heap Int) := do
  let n ← h.load p
  if n = intMax then none else h.store p (n + 1)

/-- `CountSub`. -/
def countSub (h : Heap Int) (p : Ptr) : Option (Heap Int) := do
  let n ← h.load p
  if n = -intMax - 1 then none else h.store p (n - 1)

/-- `memcpy(dst + off, src, len)`. -/
def memcpy (h : Heap (List Byte)) (dst : Ptr) (off : Nat) (src : Source) (len : Nat) :
    Option (Heap (List Byte)) := do
  let bytes ← src.read h len
  writeAt h dst off bytes

/-- `delete` of a buffer; nothing is done for null. -/
def deleteBuffer (h : Heap (List Byte)) (p : Ptr) : Option (Heap (List Byte)) :=
  if p = null then some h else h.free p

namespace State

variable {ι : Type} [DecidableEq ι]

/-- No variable is constructed. -/
def empty : State ι where
  buffers := .empty
  counters := .empty
  var _ := none

/-- The fields of a variable are set. -/
def set (σ : State ι) (x : ι) (b : CMByteArray) : State ι :=
  { σ with var := update σ.var x (some b) }

/-! ## The private methods -/

/-- `freeMemory`. -/
def freeMemory (σ : State ι) (x : ι) : Option (State ι) := do
  let b ← σ.var x
  if b.useCount = null then
    return σ
  let n ← σ.counters.load b.useCount
  if n = 1 then
    let counters ← σ.counters.free b.useCount
    let buffers ← deleteBuffer σ.buffers b.buffer
    return { σ with buffers := buffers, counters := counters }.set x
      { b with useCount := null, buffer := null }
  else
    let counters ← countSub σ.counters b.useCount
    return { σ with counters := counters }

/-- `creatMemory`. The initializer `{0}` needs a place, and `new char[0] {0}` throws. The
variable keeps its counter. -/
def creatMemory (σ : State ι) (x : ι) (size : Nat) : Option (State ι × Answer) := do
  if size = 0 then
    return (σ, .badArrayNewLength)
  let b ← σ.var x
  let new := σ.buffers.alloc (List.replicate size 0)
  let buffers ← memcpy new.2 new.1 0 (.buffer b.buffer 0) size
  let n ← σ.counters.load b.useCount
  let b' := { b with buffer := new.1, bufferLen := size }
  if n = 1 then
    let buffers ← deleteBuffer buffers b.buffer
    return ({ σ with buffers := buffers }.set x b', .done)
  else
    let counters ← countSub σ.counters b.useCount
    return ({ σ with buffers := buffers, counters := counters }.set x b', .done)

/-! ## Constructors, assignments and the destructor -/

/-- `CMByteArray()`. -/
def construct (σ : State ι) (x : ι) : Option (State ι × Answer) :=
  let new := σ.counters.alloc 1
  some ({ σ with counters := new.2 }.set x { useCount := new.1 }, .done)

/-- `CMByteArray(uint size)`. -/
def constructSize (σ : State ι) (x : ι) (size : Nat) : Option (State ι × Answer) :=
  if size = 0 then some (σ, .badArrayNewLength)
  else
    let buffer := σ.buffers.alloc (List.replicate size 0)
    let useCount := σ.counters.alloc 1
    some ({ σ with buffers := buffer.2, counters := useCount.2 }.set x
      { buffer := buffer.1, bufferLen := size, useCount := useCount.1 }, .done)

/-- `CMByteArray(const char* str, uint len)`. -/
def constructPtrLen (σ : State ι) (x : ι) (str : List Byte) (len : Nat) :
    Option (State ι × Answer) := do
  if len = 0 then
    return (σ, .badArrayNewLength)
  let buffer := σ.buffers.alloc (List.replicate len 0)
  let buffers ← memcpy buffer.2 buffer.1 0 (.bytes str) len
  let useCount := σ.counters.alloc 1
  return ({ σ with buffers := buffers, counters := useCount.2 }.set x
    { buffer := buffer.1, bufferLen := len, size := len, useCount := useCount.1 }, .done)

/-- `CMByteArray(const char* str)`. -/
def constructStr (σ : State ι) (x : ι) (str : List Byte) : Option (State ι × Answer) :=
  σ.constructPtrLen x str (strlen str % uintSize)

/-- The fields of another variable are taken, and its counter counts up. -/
def share (σ : State ι) (x other : ι) : Option (State ι × Answer) := do
  let o ← σ.var other
  if o.useCount = null then
    return (σ.set x o, .done)
  let counters ← countAdd σ.counters o.useCount
  return ({ σ with counters := counters }.set x o, .done)

/-- `CMByteArray(const CMByteArray& other)`. -/
def copyConstruct (σ : State ι) (x other : ι) : Option (State ι × Answer) := σ.share x other

/-- `CMByteArray(CMByteArray&& other)`. -/
def moveConstruct (σ : State ι) (x other : ι) : Option (State ι × Answer) := σ.share x other

/-- `operator=(const CMByteArray& other)`. -/
def copyAssign (σ : State ι) (x other : ι) : Option (State ι × Answer) := σ.share x other

/-- `operator=(CMByteArray&& other)`. -/
def moveAssign (σ : State ι) (x other : ι) : Option (State ι × Answer) := σ.share x other

/-- `~CMByteArray()`. -/
def destroy (σ : State ι) (x : ι) : Option (State ι × Answer) := do
  let σ ← σ.freeMemory x
  return ({ σ with var := update σ.var x none }, .done)

/-! ## `append` and `insert` -/

/-- Where `append` and `insert` make a shared buffer an own one. -/
def detach (σ : State ι) (x : ι) (newSize : Nat) : Option (State ι × Answer) := do
  let b ← σ.var x
  let n ← σ.counters.load b.useCount
  if n > 1 then
    let size ← stepped newSize
    σ.creatMemory x size
  else
    return (σ, .done)

/-- `append(const char* byte, uint len)`. -/
def appendPtr (σ : State ι) (x : ι) (byte : Source) (len : Nat) :
    Option (State ι × Answer) := do
  if len = 0 then
    return (σ, .done)
  let b ← σ.var x
  let newSize := (len + b.size) % uintSize
  andThen (σ.detach x newSize) fun σ => do
    let b ← σ.var x
    andThen
      (if b.bufferLen < newSize then do
        let newSize ← stepped newSize
        σ.creatMemory x newSize
      else some (σ, .done))
      fun σ => do
        let b ← σ.var x
        let buffers ← memcpy σ.buffers b.buffer b.size byte len
        return ({ σ with buffers := buffers }.set x
          { b with size := (b.size + len) % uintSize }, .done)

/-- `insert(uint pos, const char* byte, uint len)`. -/
def insertPtr (σ : State ι) (x : ι) (pos : Nat) (byte : Source) (len : Nat) :
    Option (State ι × Answer) := do
  let b ← σ.var x
  if pos > b.size ∨ len = 0 then
    return (σ, .done)
  if pos = b.size then
    σ.appendPtr x byte len
  else
    let newSize := (b.size + len) % uintSize
    andThen (σ.detach x newSize) fun σ => do
      let b ← σ.var x
      andThen
        (if b.bufferLen < newSize then
          σ.creatMemory x ((newSize - b.bufferLen + newSize) % uintSize)
        else some (σ, .done))
        fun σ => do
          let b ← σ.var x
          let buffers ← memcpy σ.buffers b.buffer (pos + len) (.buffer b.buffer pos) (b.size - pos)
          let buffers ← memcpy buffers b.buffer pos byte len
          return ({ σ with buffers := buffers }.set x
            { b with size := (b.size + len) % uintSize }, .done)

/-! ## Reading -/

/-- `data`. -/
def data (σ : State ι) (x : ι) : Option (Ptr × Nat) := (σ.var x).map fun b => (b.buffer, b.size)

/-- The bytes behind `data`. -/
def content (σ : State ι) (x : ι) : Option (List Byte) := do
  let (byte, len) ← σ.data x
  readAt σ.buffers byte 0 len

end State

/-! ## Calls -/

/-- A `const char*` with its length, a C string, or another array. -/
inductive Arg (ι : Type)
  | ptr (byte : List Byte)
  | cstr (str : List Byte)
  | array (other : ι)

/-- The pointer and the length that an overload passes on. -/
def Arg.data {ι : Type} (σ : State ι) : Arg ι → Option (Source × Nat)
  | .ptr byte => some (.bytes byte, byte.length)
  | .cstr str => some (.bytes str, strlen str % uintSize)
  | .array other => (σ.var other).map fun o => (.buffer o.buffer 0, o.size)

/-- Why there is no state behind a call: undefined behaviour, or `std::terminate`, which
an exception in a `noexcept` constructor leads to. -/
inductive Stop
  | undefined
  | terminated
  deriving DecidableEq, Repr

/-- A function that may throw. -/
def returned {ι : Type} : Option (State ι × Answer) → Except Stop (State ι × Answer)
  | none => .error .undefined
  | some r => .ok r

/-- A `noexcept` function. -/
def noexcept {ι : Type} : Option (State ι × Answer) → Except Stop (State ι × Answer)
  | none => .error .undefined
  | some (σ, .done) => .ok (σ, .done)
  | some _ => .error .terminated

/-- The operations on variables. -/
inductive Call (ι : Type)
  | construct (x : ι)
  | constructSize (x : ι) (size : Nat)
  | constructPtrLen (x : ι) (str : List Byte)
  | constructStr (x : ι) (str : List Byte)
  | copyConstruct (x other : ι)
  | moveConstruct (x other : ι)
  | copyAssign (x other : ι)
  | moveAssign (x other : ι)
  | append (x : ι) (str : Arg ι)
  | insert (x : ι) (pos : Nat) (str : Arg ι)
  | destroy (x : ι)

variable {ι : Type} [DecidableEq ι]

/-- An operation. -/
def Call.run (σ : State ι) : Call ι → Except Stop (State ι × Answer)
  | .construct x => noexcept (σ.construct x)
  | .constructSize x size => noexcept (σ.constructSize x size)
  | .constructPtrLen x str => noexcept (σ.constructPtrLen x str str.length)
  | .constructStr x str => noexcept (σ.constructStr x str)
  | .copyConstruct x other => noexcept (σ.copyConstruct x other)
  | .moveConstruct x other => noexcept (σ.moveConstruct x other)
  | .copyAssign x other => noexcept (σ.copyAssign x other)
  | .moveAssign x other => noexcept (σ.moveAssign x other)
  | .append x str => returned (do
      let (byte, len) ← str.data σ
      σ.appendPtr x byte len)
  | .insert x pos str => returned (do
      let (byte, len) ← str.data σ
      σ.insertPtr x pos byte len)
  | .destroy x => noexcept (σ.destroy x)

/-- A length is of type `uint`, and an array is constructed. -/
def Arg.Legal {ι : Type} (σ : State ι) : Arg ι → Prop
  | .ptr byte => byte.length < uintSize
  | .cstr _ => True
  | .array other => σ.var other ≠ none

/-- A call that a program can make: a variable is constructed before it is used, and once
only, and lengths and positions are of type `uint`. -/
def Call.Legal (σ : State ι) : Call ι → Prop
  | .construct x => σ.var x = none
  | .constructSize x size => σ.var x = none ∧ size < uintSize
  | .constructPtrLen x str => σ.var x = none ∧ str.length < uintSize
  | .constructStr x _ => σ.var x = none
  | .copyConstruct x other | .moveConstruct x other => σ.var x = none ∧ σ.var other ≠ none
  | .copyAssign x other | .moveAssign x other => σ.var x ≠ none ∧ σ.var other ≠ none
  | .append x str => σ.var x ≠ none ∧ str.Legal σ
  | .insert x pos str => σ.var x ≠ none ∧ pos < uintSize ∧ str.Legal σ
  | .destroy x => σ.var x ≠ none

end LearnSpace.Network
