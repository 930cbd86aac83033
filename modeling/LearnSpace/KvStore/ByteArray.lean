import LearnSpace.Keel.Buffer
import LearnSpace.Keel.Double
import LearnSpace.Keel.Machine
import LearnSpace.Keel.Shared

/-!
# The copy-on-write byte array of the key-value store

A pool of `CMByteArray` variables that share their buffers through
`shared_ptr`. The fields of the variables are functions of the variable's
name, and `data` holds the buffers with the pointer each variable has. A
method runs statement by statement and answers `none` when it reads or writes
outside a live buffer; a method that throws `std::out_of_range` answers the
state it leaves behind. An overlapping `memcpy` is a `memmove`.
-/

namespace LearnSpace.KvStore

open Keel Function

/-- `char`, by its bits. -/
abbrev Byte := UInt8

/-- `CMByteArray::_defInitcapacity`. -/
def defInitCapacity : Nat := 1024

/-- `static_cast<size_t>(n * _step)`, where `_step` is the double 1.5. -/
def stepCapacity (n : Nat) : Nat := Double.timesThreeHalves n

/-- `strlen` of the C string at the start of `s`. -/
def strlen (s : List Byte) : Nat := (s.takeWhile (· ≠ 0)).length

/-- How a call ends: normally, or by `std::out_of_range`. -/
inductive Outcome
  | done
  | outOfRange
  deriving DecidableEq, Repr

/-- Where the bytes of a `const char*` argument lie: in memory of the caller,
or at an offset in a buffer of the pool. -/
inductive Source
  | bytes (b : List Byte)
  | buffer (p : Ptr) (off : Nat)

/-- Read `len` bytes through a pointer; reading nothing follows no pointer. -/
def readAt (h : Heap (List Byte)) (p : Ptr) (off len : Nat) : Option (List Byte) :=
  if len = 0 then some []
  else do
    let b ← h.load p
    Buffer.slice b off len

/-- Write bytes through a pointer; writing nothing follows no pointer. -/
def writeAt (h : Heap (List Byte)) (p : Ptr) (off : Nat) (src : List Byte) :
    Option (Heap (List Byte)) :=
  if src = [] then some h
  else do
    let b ← h.load p
    let b ← Buffer.blit b off src
    h.store p b

/-- Read the first `len` bytes of a `const char*` argument. -/
def Source.read (h : Heap (List Byte)) : Source → Nat → Option (List Byte)
  | .bytes b, len => Buffer.slice b 0 len
  | .buffer p off, len => readAt h p off len

/-- The variables of type `CMByteArray` and the buffers they share. One that is
not constructed holds no buffer; constructing one anew destroys it first. -/
structure Pool (ι : Type) where
  data : Shared ι (List Byte)
  size : ι → Nat
  capacity : ι → Nat

namespace Pool

variable {ι : Type} [Fintype ι] [DecidableEq ι]

/-- Before any construction. -/
def empty : Pool ι where
  data := .empty
  size _ := 0
  capacity _ := 0

/-- `resetBuffer`: a zeroed buffer of `_capacity` bytes that takes over the
first `_size` bytes of the old one. -/
def resetBuffer (σ : Pool ι) (x : ι) : Option (Pool ι) := do
  let old ← readAt σ.data.heap (σ.data.holder x) 0 (σ.size x)
  let buffer ← Buffer.blit (List.replicate (σ.capacity x) 0) 0 old
  return { σ with data := σ.data.fresh x buffer }

/-- `detach`. -/
def detach (σ : Pool ι) (x : ι) : Option (Pool ι) :=
  if σ.data.unique x then some σ else σ.resetBuffer x

/-- The growth at the head of `insertElement`: room for `dataLen` more bytes,
then a buffer of its own. -/
def makeRoom (σ : Pool ι) (x : ι) (dataLen : Nat) : Option (Pool ι) := do
  let σ ←
    if σ.size x + dataLen > σ.capacity x then
      resetBuffer
        { σ with capacity := update σ.capacity x (stepCapacity (σ.capacity x + dataLen)) } x
    else some σ
  σ.detach x

/-- `insertElement`. The bytes from `pos` on are moved to the old end, and
`dataP` is copied over `pos`. -/
def insertElement (σ : Pool ι) (x : ι) (pos : Nat) (dataP : Source) (dataLen : Nat) :
    Option (Pool ι × Outcome) := do
  if ¬ pos ≤ σ.size x then
    return (σ, .outOfRange)
  let size := σ.size x + dataLen
  let σ ← σ.makeRoom x dataLen
  let p := σ.data.holder x
  let tail ← readAt σ.data.heap p pos (σ.size x - pos)
  let heap ← writeAt σ.data.heap p (σ.size x) tail
  let bytes ← dataP.read heap dataLen
  let heap ← writeAt heap p pos bytes
  return ({ σ with data := { σ.data with heap := heap }, size := update σ.size x size }, .done)

/-- `reomveElement`. -/
def reomveElement (σ : Pool ι) (x : ι) (pos len : Nat) : Option (Pool ι × Outcome) := do
  if ¬ pos ≤ σ.size x then
    return (σ, .outOfRange)
  let σ ← σ.detach x
  let len := if σ.size x - pos < len then σ.size x - pos else len
  let moveSize := σ.size x - pos - len
  let p := σ.data.holder x
  let rest ← readAt σ.data.heap p (pos + len) moveSize
  let heap ← writeAt σ.data.heap p pos rest
  let size := σ.size x - len
  let heap ← writeAt heap p size (List.replicate (σ.capacity x - size) 0)
  return ({ σ with data := { σ.data with heap := heap }, size := update σ.size x size }, .done)

/-! ## Constructors and assignments -/

/-- `CMByteArray(size_t capacity)`. -/
def constructCapacity (σ : Pool ι) (x : ι) (capacity : Nat) : Option (Pool ι) :=
  resetBuffer
    { σ with
      size := update σ.size x 0
      capacity := update σ.capacity x capacity } x

/-- `CMByteArray()`. -/
def construct (σ : Pool ι) (x : ι) : Option (Pool ι) := σ.constructCapacity x defInitCapacity

/-- `CMByteArray(const char* str, size_t len)`. -/
def constructPtrLen (σ : Pool ι) (x : ι) (str : Source) (len : Nat) :
    Option (Pool ι × Outcome) := do
  let σ ← σ.constructCapacity x (len + 1)
  σ.insertElement x 0 str len

/-- `CMByteArray(const char* str)`. -/
def constructStr (σ : Pool ι) (x : ι) (str : List Byte) : Option (Pool ι × Outcome) := do
  let σ ← σ.constructCapacity x (strlen str)
  σ.insertElement x 0 (.bytes str) (strlen str)

/-- `CMByteArray(const CMByteArray& other)` and
`operator=(const CMByteArray& other)`: the fields of `other`. -/
def copyFrom (σ : Pool ι) (x other : ι) : Pool ι where
  data := σ.data.assign x (σ.data.holder other)
  size := update σ.size x (σ.size other)
  capacity := update σ.capacity x (σ.capacity other)

/-- What a move leaves of its source, and the destructor of any variable: no
buffer, no size, no capacity. -/
def release (σ : Pool ι) (x : ι) : Pool ι where
  data := σ.data.assign x null
  size := update σ.size x 0
  capacity := update σ.capacity x 0

/-- `CMByteArray(CMByteArray&& other)` and `operator=(CMByteArray&& other)`. -/
def moveFrom (σ : Pool ι) (x other : ι) : Pool ι := (σ.copyFrom x other).release other

/-- `~CMByteArray()`. -/
def destroy (σ : Pool ι) (x : ι) : Pool ι := σ.release x

/-! ## The public methods -/

/-- `append(const char* byte, size_t len)`. -/
def appendBytes (σ : Pool ι) (x : ι) (byte : Source) (len : Nat) : Option (Pool ι × Outcome) :=
  σ.insertElement x (σ.size x) byte len

/-- `append(const char* str)`. -/
def appendStr (σ : Pool ι) (x : ι) (str : List Byte) : Option (Pool ι × Outcome) :=
  σ.insertElement x (σ.size x) (.bytes str) (strlen str)

/-- `append(const CMByteArray& str)`. -/
def append (σ : Pool ι) (x str : ι) : Option (Pool ι × Outcome) :=
  σ.insertElement x (σ.size x) (.buffer (σ.data.holder str) 0) (σ.size str)

/-- `insert(size_t pos, const char* byte, size_t len)`. -/
def insertBytes (σ : Pool ι) (x : ι) (pos : Nat) (byte : Source) (len : Nat) :
    Option (Pool ι × Outcome) :=
  σ.insertElement x pos byte len

/-- `prepend(const char* byte, size_t len)`. -/
def prependBytes (σ : Pool ι) (x : ι) (byte : Source) (len : Nat) : Option (Pool ι × Outcome) :=
  σ.insertElement x 0 byte len

/-- `remove`. -/
def remove (σ : Pool ι) (x : ι) (pos len : Nat) : Option (Pool ι × Outcome) :=
  σ.reomveElement x pos len

/-- `clear`. -/
def clear (σ : Pool ι) (x : ι) : Option (Pool ι) :=
  resetBuffer
    { σ with
      size := update σ.size x 0
      capacity := update σ.capacity x defInitCapacity } x

/-- `squeeze`. -/
def squeeze (σ : Pool ι) (x : ι) : Option (Pool ι) :=
  resetBuffer { σ with capacity := update σ.capacity x (σ.size x) } x

/-- `*(_data.get() + i) = b`. -/
def poke (σ : Pool ι) (x : ι) (i : Nat) (b : Byte) : Option (Pool ι) := do
  let heap ← writeAt σ.data.heap (σ.data.holder x) i [b]
  return { σ with data := { σ.data with heap := heap } }

end Pool

/-- The ways to write a byte through a variable. -/
inductive Entry
  | index
  | data
  | begin
  deriving DecidableEq, Repr

namespace Pool

variable {ι : Type} [Fintype ι] [DecidableEq ι]

/-- `x[pos] = b` through the non-const `operator[]`. -/
def writeIndex (σ : Pool ι) (x : ι) (pos : Nat) (b : Byte) : Option (Pool ι × Outcome) := do
  if ¬ pos < σ.size x then
    return (σ, .outOfRange)
  let σ ← σ.poke x pos b
  return (σ, .done)

/-- `x.data()[pos] = b` through the non-const `data`. -/
def writeData (σ : Pool ι) (x : ι) (pos : Nat) (b : Byte) : Option (Pool ι × Outcome) := do
  let σ ← σ.poke x pos b
  return (σ, .done)

/-- `*it = b`, where `it` is the non-const `begin()` advanced `pos` times. -/
def writeBegin (σ : Pool ι) (x : ι) (pos : Nat) (b : Byte) : Option (Pool ι × Outcome) := do
  let σ ← σ.poke x pos b
  return (σ, .done)

/-- A write of one byte through one of the entry points. -/
def write (σ : Pool ι) : Entry → ι → Nat → Byte → Option (Pool ι × Outcome)
  | .index => σ.writeIndex
  | .data => σ.writeData
  | .begin => σ.writeBegin

/-- The bytes of a variable: the first `_size` of its buffer. -/
def content (σ : Pool ι) (x : ι) : List Byte :=
  ((σ.data.heap.cell (σ.data.holder x)).getD []).take (σ.size x)

end Pool

/-- A call on the pool. -/
inductive Call (ι : Type)
  | construct (x : ι)
  | constructCapacity (x : ι) (capacity : Nat)
  | constructPtrLen (x : ι) (bytes : List Byte)
  | constructStr (x : ι) (str : List Byte)
  | copyConstruct (x other : ι)
  | moveConstruct (x other : ι)
  | copyAssign (x other : ι)
  | moveAssign (x other : ι)
  | destroy (x : ι)
  | appendBytes (x : ι) (bytes : List Byte)
  | appendStr (x : ι) (str : List Byte)
  | append (x str : ι)
  | remove (x : ι) (pos len : Nat)
  | clear (x : ι)
  | squeeze (x : ι)
  | detach (x : ι)
  | write (entry : Entry) (x : ι) (pos : Nat) (b : Byte)

/-- The pool of variables as a machine. -/
def byteArrays (ι : Type) [Fintype ι] [DecidableEq ι] : Machine (Pool ι) (Call ι) Outcome where
  start := .empty
  exec
    | σ, .construct x => (σ.construct x).map (·, .done)
    | σ, .constructCapacity x capacity => (σ.constructCapacity x capacity).map (·, .done)
    | σ, .constructPtrLen x bytes => σ.constructPtrLen x (.bytes bytes) bytes.length
    | σ, .constructStr x str => σ.constructStr x str
    | σ, .copyConstruct x other => some (σ.copyFrom x other, .done)
    | σ, .moveConstruct x other => some (σ.moveFrom x other, .done)
    | σ, .copyAssign x other => some (σ.copyFrom x other, .done)
    | σ, .moveAssign x other => some (σ.moveFrom x other, .done)
    | σ, .destroy x => some (σ.destroy x, .done)
    | σ, .appendBytes x bytes => σ.appendBytes x (.bytes bytes) bytes.length
    | σ, .appendStr x str => σ.appendStr x str
    | σ, .append x str => σ.append x str
    | σ, .remove x pos len => σ.remove x pos len
    | σ, .clear x => (σ.clear x).map (·, .done)
    | σ, .squeeze x => (σ.squeeze x).map (·, .done)
    | σ, .detach x => (σ.detach x).map (·, .done)
    | σ, .write entry x pos b => σ.write entry x pos b

end LearnSpace.KvStore
