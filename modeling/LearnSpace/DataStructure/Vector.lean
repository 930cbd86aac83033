import LearnSpace.Keel.Arrays
import LearnSpace.Keel.Machine
import LearnSpace.DataStructure.ContainerBase

/-!
# The vector

`MContainer::Vector`, statement by statement, for a trivially copyable `T`, over the heap
its arrays live in. `none` is an access outside an array, through a null or a dangling
pointer, or to an element that was never assigned. A `memcpy` or `memmove` of no elements
accesses nothing, also where a pointer is null. Allocation does not fail.

Vectors hand their arrays to each other, so the calls act on a pool of them. An `assert`
that fails ends the process in a debug build, which is answered as `aborted`; a release
build does not have it.
-/

namespace LearnSpace.DataStructure

open Keel Function

/-- The fields of a `Vector`. -/
structure Vector where
  element : Ptr
  size : UInt32
  step : UInt32
  capacity : UInt32

namespace Vector

/-- `Vector::m_stepUint`. -/
def stepUint : UInt32 := 10

/-- What a call gives back. -/
inductive Answer (T : Type)
  | done
  | value (t : T)
  | outOfRange
  | aborted

variable {T : Type}

/-- A vector in the heap of its array. -/
abbrev State (T : Type) := Arrays T × Vector

/-- `freeMemory`. -/
def freeMemory (v : Vector) (h : Arrays T) : Option (State T) := do
  if v.element ≠ null then
    let h ← h.free v.element
    return (h, { v with element := null })
  return (h, v)

/-! ## Construction and assignment -/

/-- `Vector(uint)`; no vector where its assertion ends the process. -/
def construct (build : Build) (h : Arrays T) (size : UInt32) : Arrays T × Option Vector :=
  if build.Stops (size ≤ maxSize) then (h, none)
  else
    let new := h.new size.toNat
    (new.2, some { element := new.1, size := 0, step := stepUint, capacity := size })

/-- `Vector(const Vector&)`. -/
def copyConstruct (h : Arrays T) (t : Vector) : Option (State T) := do
  let new := h.new t.capacity.toNat
  let h ← new.2.move new.1 0 t.element 0 t.size.toNat
  return (h, { element := new.1, size := t.size, step := t.step, capacity := t.capacity })

/-- `Vector(Vector&&)`: the new vector, and what it leaves of the other. -/
def moveConstruct (t : Vector) : Vector × Vector :=
  ({ element := t.element, size := t.size, step := t.step, capacity := t.capacity },
    { t with element := null, size := 0, capacity := 0 })

/-- `clear`. -/
def clear (v : Vector) (h : Arrays T) : Option (State T) := do
  let (h, v) ← v.freeMemory h
  return (h, { v with size := 0, capacity := 0, step := stepUint })

/-- `operator=(const Vector&)` for another vector. The array there was is not freed. -/
def copyAssign (v : Vector) (h : Arrays T) (t : Vector) : Option (State T) := do
  let new := h.new t.capacity.toNat
  let h ← new.2.move new.1 0 t.element 0 t.size.toNat
  return (h,
    { v with element := new.1, size := t.size, step := t.step, capacity := t.capacity })

/-- `operator=(Vector&&)` for another vector, and what it leaves of that. -/
def moveAssign (v : Vector) (h : Arrays T) (t : Vector) :
    Option (Arrays T × Vector × Vector) := do
  -- unlike the copying operator this one frees what the vector had
  let (h, v) ← v.clear h
  return (h,
    { v with element := t.element, size := t.size, step := t.step, capacity := t.capacity },
    { t with element := null, size := 0, capacity := 0 })

/-! ## Methods -/

/-- The growth in `append`: a larger array takes over the elements. -/
def grow (v : Vector) (h : Arrays T) : Option (State T) := do
  let capacity := if v.capacity + v.step > maxSize then maxSize else v.capacity + v.step
  let new := h.new capacity.toNat
  let h ← new.2.move new.1 0 v.element 0 v.size.toNat
  let (h, v) ← v.freeMemory h
  return (h, { v with element := new.1, capacity := capacity })

/-- `append`. -/
def append (build : Build) (v : Vector) (h : Arrays T) (t : T) :
    Option (State T × Answer T) := do
  if v.size + 1 > v.capacity ∧ build.Stops (v.capacity + 1 ≤ maxSize) then
    return ((h, v), .aborted)
  let (h, v) ← (if v.size + 1 > v.capacity then v.grow h else return (h, v))
  let h ← h.set v.element v.size.toNat t
  return ((h, { v with size := v.size + 1 }), .done)

/-- `removeAt(uint, uint)`. -/
def removeRange (v : Vector) (h : Arrays T) (pos len : UInt32) :
    Option (State T × Answer T) := do
  -- the other half of the guard, `pos < 0`, is false of every unsigned position
  if pos > v.size then
    return ((h, v), .done)
  let len := if len + pos > v.size then v.size - pos else len
  let range := pos + len
  let size := v.size - range
  let h ← h.move v.element pos.toNat v.element range.toNat size.toNat
  return ((h, { v with size := v.size - len }), .done)

/-- `removeAt(uint)`. -/
def removeAt (v : Vector) (h : Arrays T) (pos : UInt32) : Option (State T × Answer T) :=
  v.removeRange h pos 1

/-- `removeFirst`. -/
def removeFirst (v : Vector) (h : Arrays T) : Option (State T × Answer T) :=
  v.removeAt h 0

/-- `removeLast`. -/
def removeLast (v : Vector) (h : Arrays T) : Option (State T × Answer T) :=
  v.removeAt h (v.size - 1)

/-- `swap`. -/
def swap (v : Vector) (h : Arrays T) (first second : UInt32) :
    Option (State T × Answer T) := do
  -- `noexcept` and silent: nothing tells the caller that a position was wrong
  if first = second ∨ first ≥ v.size ∨ second ≥ v.size then
    return ((h, v), .done)
  let tmp ← h.get v.element first.toNat
  let t ← h.get v.element second.toNat
  let h ← h.set v.element first.toNat t
  let h ← h.set v.element second.toNat tmp
  return ((h, v), .done)

/-- `at`. -/
def at' (v : Vector) (h : Arrays T) (pos : UInt32) : Option (State T × Answer T) := do
  if pos ≥ v.size then
    return ((h, v), .outOfRange)
  let t ← h.get v.element pos.toNat
  return ((h, v), .value t)

/-- `first`. -/
def first (v : Vector) (h : Arrays T) : Option (State T × Answer T) := do
  if v.size = 0 then
    return ((h, v), .outOfRange)
  let t ← h.get v.element 0
  return ((h, v), .value t)

/-- `last`. -/
def last (v : Vector) (h : Arrays T) : Option (State T × Answer T) := do
  if v.size = 0 then
    return ((h, v), .outOfRange)
  let t ← h.get v.element (v.size - 1).toNat
  return ((h, v), .value t)

/-- The calls of a vector. -/
inductive Call (T : Type)
  | append (t : T)
  | removeAt (pos : UInt32)
  | removeFirst
  | removeLast
  | swap (first second : UInt32)
  | clear
  | at' (pos : UInt32)
  | first
  | last

/-- One call. -/
def call (build : Build) (v : Vector) (h : Arrays T) : Call T → Option (State T × Answer T)
  | .append t => v.append build h t
  | .removeAt pos => v.removeAt h pos
  | .removeFirst => v.removeFirst h
  | .removeLast => v.removeLast h
  | .swap first second => v.swap h first second
  | .clear => (v.clear h).map (·, .done)
  | .at' pos => v.at' h pos
  | .first => v.first h
  | .last => v.last h

/-- The calls that keep a vector within the bound of all containers. -/
def Fits (v : Vector) : Call T → Prop
  | .append _ => v.size < maxSize
  | _ => True

instance (v : Vector) : (c : Call T) → Decidable (v.Fits c)
  | .append _ => inferInstanceAs (Decidable (_ < _))
  | .removeAt _ | .removeFirst | .removeLast | .swap _ _ | .clear | .at' _ | .first | .last =>
    .isTrue trivial

/-! ## Pools -/

/-- Vectors under names, in one heap. -/
structure Pool (ι T : Type) where
  heap : Arrays T
  vector : ι → Option Vector

namespace Pool

/-- What a client does with a pool. -/
inductive Use (ι T : Type)
  | construct (x : ι)
  | constructCapacity (x : ι) (capacity : UInt32)
  | copyConstruct (x y : ι)
  | moveConstruct (x y : ι)
  | copyAssign (x y : ι)
  | moveAssign (x y : ι)
  | call (x : ι) (c : Call T)
  | destroy (x : ι)

variable {ι : Type} [DecidableEq ι]

/-- No vectors at all. -/
def initial : Pool ι T where
  heap := .empty
  vector _ := none

/-- The pool with another vector under the name `x`. -/
def put (σ : Pool ι T) (x : ι) (state : Arrays T × Option Vector) : Pool ι T where
  heap := state.1
  vector := update σ.vector x state.2

/-- A step of the client. -/
def use (build : Build) (σ : Pool ι T) : Use ι T → Option (Pool ι T × Answer T)
  | .construct x => some (σ.put x (Vector.construct build σ.heap 0), .done)
  | .constructCapacity x capacity =>
    let new := Vector.construct build σ.heap capacity
    some (σ.put x new, if new.2.isSome then .done else .aborted)
  | .copyConstruct x y => do
    let t ← σ.vector y
    let (h, v) ← Vector.copyConstruct σ.heap t
    return (σ.put x (h, v), .done)
  | .moveConstruct x y => do
    let t ← σ.vector y
    let (v, t) := Vector.moveConstruct t
    return ((σ.put y (σ.heap, t)).put x (σ.heap, v), .done)
  | .copyAssign x y => do
    let v ← σ.vector x
    let t ← σ.vector y
    if x = y then
      return (σ, .done)
    let (h, v) ← v.copyAssign σ.heap t
    return (σ.put x (h, v), .done)
  | .moveAssign x y => do
    let v ← σ.vector x
    let t ← σ.vector y
    if x = y then
      return (σ, .done)
    let (h, v, t) ← v.moveAssign σ.heap t
    return ((σ.put y (h, t)).put x (h, v), .done)
  | .call x c => do
    let v ← σ.vector x
    let ((h, v), answer) ← v.call build σ.heap c
    return (σ.put x (h, v), answer)
  | .destroy x => do
    let v ← σ.vector x
    let (h, _) ← v.clear σ.heap
    return (σ.put x (h, none), .done)

/-- What a client may do: construct under a free name, use what is constructed, and keep
every vector within the bound of all containers. -/
def Legal (σ : Pool ι T) : Use ι T → Prop
  | .construct x | .constructCapacity x _ => (σ.vector x).isNone
  | .copyConstruct x y | .moveConstruct x y => (σ.vector x).isNone ∧ (σ.vector y).isSome
  | .copyAssign x y | .moveAssign x y => (σ.vector x).isSome ∧ (σ.vector y).isSome
  | .call x c => ∃ v ∈ σ.vector x, v.Fits c
  | .destroy x => (σ.vector x).isSome

instance (σ : Pool ι T) : (u : Use ι T) → Decidable (σ.Legal u)
  | .construct _ | .constructCapacity _ _ | .destroy _ => inferInstanceAs (Decidable (_ = true))
  | .copyConstruct _ _ | .moveConstruct _ _ | .copyAssign _ _ | .moveAssign _ _ =>
    inferInstanceAs (Decidable (_ ∧ _))
  | .call _ _ => inferInstanceAs (Decidable (∃ v ∈ _, _))

/-- A pool from its start. -/
def vectors (build : Build) (ι T : Type) [DecidableEq ι] :
    Machine (Pool ι T) (Use ι T) (Answer T) where
  start := initial
  exec := use build

end Pool

/-! ## Sequences -/

/-- What a vector is for: a growable sequence. -/
def sequence (ts : List T) : Call T → List T × Answer T
  | .append t => (ts ++ [t], .done)
  | .removeAt pos => (ts.eraseIdx pos.toNat, .done)
  | .removeFirst => (ts.tail, .done)
  | .removeLast => (ts.dropLast, .done)
  | .swap first second => (swapAt ts first.toNat second.toNat, .done)
  | .clear => ([], .done)
  | .at' pos => (ts, ts[pos.toNat]?.elim .outOfRange .value)
  | .first => (ts, ts.head?.elim .outOfRange .value)
  | .last => (ts, ts.getLast?.elim .outOfRange .value)

open Pool in
/-- What a pool is for: sequences that have nothing to do with each other. -/
def sequences (build : Build) (ι T : Type) [DecidableEq ι] :
    Total (ι → Option (List T)) (Use ι T) (Answer T) where
  start _ := none
  next tss
    | .construct x => (update tss x (some []), .done)
    | .constructCapacity x capacity =>
      if build.Stops (capacity ≤ maxSize) then (tss, .aborted)
      else (update tss x (some []), .done)
    | .copyConstruct x y | .copyAssign x y => (update tss x (tss y), .done)
    | .moveConstruct x y => (update (update tss y (some [])) x (tss y), .done)
    | .moveAssign x y =>
      if x = y then (tss, .done) else (update (update tss y (some [])) x (tss y), .done)
    | .call x c =>
      match tss x with
      | some ts => (update tss x (some (sequence ts c).1), (sequence ts c).2)
      | none => (tss, .done)
    | .destroy x => (update tss x none, .done)

end Vector

end LearnSpace.DataStructure
