import Mathlib.Algebra.Group.Nat.Defs
import LearnSpace.Keel.Machine
import LearnSpace.DataStructure.Nodes

/-!
# The queue

`Queue`, statement by statement, over the heap its nodes live in. `none` is a
dereference of a null or a dangling pointer, a node deleted twice, or an `int` that
overflows. A method that throws `std::out_of_range` answers `outOfRange`. In a debug
build a push on a queue that is full answers `aborted`: its assertion ends the process
before it has changed anything. A release build does not have the assertion, and counts
the size modulo `2 ^ 32`.
-/

namespace LearnSpace.DataStructure

open Keel

/-- The fields of a `Queue`. -/
structure Queue where
  head : Ptr
  tail : Ptr
  size : UInt32

namespace Queue

/-- What a call gives back. -/
inductive Answer (T : Type)
  | done
  | value (t : T)
  | size (n : Nat)
  | empty (b : Bool)
  | outOfRange
  | aborted

variable {T : Type}

/-- A queue in the heap of its nodes. -/
abbrev State (T : Type) := Heap (Node T) × Queue

/-- `Queue()`. -/
def construct [Inhabited T] (h : Heap (Node T)) : State T :=
  let new := newNode h
  (new.2, { head := new.1, tail := null, size := 0 })

/-- `pushBack(const T&)`. -/
def pushBack [Inhabited T] (build : Build) (q : Queue) (h : Heap (Node T)) (t : T) :
    Option (State T × Answer T) := do
  if build.Stops (q.size + 1 ≤ maxSize) then
    return ((h, q), .aborted)
  let node := (newNode h).1
  let h ← setData (newNode h).2 node t
  let h ← (if q.tail = null then do
      let h ← setPrevious h node q.head
      setNext h q.head node
    else do
      let h ← setPrevious h node q.tail
      setNext h q.tail node)
  return ((h, { q with tail := node, size := q.size + 1 }), .done)

/-- `pushBack(T&&)`: the same statements, with the element moved into the node. -/
def pushBackMove [Inhabited T] (build : Build) (q : Queue) (h : Heap (Node T)) (t : T) :
    Option (State T × Answer T) :=
  q.pushBack build h t

/-- `pushFront(T&&)`. -/
def pushFront [Inhabited T] (build : Build) (q : Queue) (h : Heap (Node T)) (t : T) :
    Option (State T × Answer T) := do
  if build.Stops (q.size + 1 ≤ maxSize) then
    return ((h, q), .aborted)
  let node := (newNode h).1
  let h ← setData (newNode h).2 node t
  let (h, tail) ← (if q.tail = null then do
      let h ← setNext h q.head node
      let h ← setPrevious h node q.head
      return (h, node)
    else do
      let next ← nextOf h q.head
      let h ← setNext h node next
      let h ← setNext h q.head node
      let next ← nextOf h node
      let h ← setPrevious h next node
      let h ← setPrevious h node q.head
      return (h, q.tail))
  return ((h, { q with tail := tail, size := q.size + 1 }), .done)

/-- `popBack`. -/
def popBack (q : Queue) (h : Heap (Node T)) : Option (State T × Answer T) := do
  if q.size = 0 then
    return ((h, q), .outOfRange)
  let ptr := q.tail
  let t ← dataOf h ptr
  let previous ← previousOf h ptr
  -- the last node goes, and with the only one `m_tail` becomes null again
  let (h, tail) ← (if previous = q.head then do
      let h ← setNext h q.head null
      return (h, null)
    else do
      let tail ← previousOf h q.tail
      let h ← setNext h tail null
      return (h, tail))
  let h ← h.free ptr
  return ((h, { q with tail := tail, size := q.size - 1 }), .value t)

/-- `popFront`. -/
def popFront (q : Queue) (h : Heap (Node T)) : Option (State T × Answer T) := do
  if q.size = 0 then
    return ((h, q), .outOfRange)
  let ptr ← nextOf h q.head
  let t ← dataOf h ptr
  let (h, tail) ← (if ptr = q.tail then do
      let h ← setNext h q.head null
      return (h, null)
    else do
      let next ← nextOf h ptr
      let h ← setNext h q.head next
      let next ← nextOf h ptr
      let h ← setPrevious h next q.head
      return (h, q.tail))
  let h ← h.free ptr
  return ((h, { q with tail := tail, size := q.size - 1 }), .value t)

/-- `head`. -/
def front (q : Queue) (h : Heap (Node T)) : Option (State T × Answer T) := do
  if q.size = 0 then
    return ((h, q), .outOfRange)
  let ptr ← nextOf h q.head
  let t ← dataOf h ptr
  return ((h, q), .value t)

/-- `tail`. -/
def rear (q : Queue) (h : Heap (Node T)) : Option (State T × Answer T) := do
  if q.size = 0 then
    return ((h, q), .outOfRange)
  let t ← dataOf h q.tail
  return ((h, q), .value t)

theorem toNat_pred_sub_lt {a m : Int} (h : m < a) : (a - 1 - m).toNat < (a - m).toNat := by
  omega

/-- The loop of `at`: one link forwards each time `pos` is counted down, which has no
defined result for the smallest `int`. -/
def walkLoop (h : Heap (Node T)) : While (Ptr × Int) Unit Ptr where
  body s :=
    if s.2 = 0 then .ok (.inr s.1)
    else
      match nextOf h s.1 with
      | some next =>
        if Int32.minValue.toInt < s.2 then .ok (.inl (next, s.2 - 1)) else .error ()
      | none => .error ()
  measure s := (s.2 - Int32.minValue.toInt).toNat
  decreases s s' h := by
    split at h
    · cases h
    · split at h
      · split at h
        · rename_i hlt
          cases h
          exact toNat_pred_sub_lt hlt
        · cases h
      · cases h

/-- `at`. The guard compares `pos` with an unsigned size, so it is converted. -/
def at' (q : Queue) (h : Heap (Node T)) (pos : Int32) : Option (State T × Answer T) := do
  if pos.toUInt32 ≥ q.size then
    return ((h, q), .outOfRange)
  let ptr ← nextOf h q.head
  let ptr ← ((walkLoop h).run (ptr, pos.toInt)).toOption
  let t ← dataOf h ptr
  return ((h, q), .value t)

/-- `clear`. -/
def clear (q : Queue) (h : Heap (Node T)) : Option (State T × Answer T) := do
  -- the link of the head node is not reset
  let ptr ← nextOf h q.head
  let h ← deleteFrom h ptr
  return ((h, { q with tail := null, size := 0 }), .done)

/-- `~Queue()`: the heap it leaves. -/
def destroy (q : Queue) (h : Heap (Node T)) : Option (Heap (Node T)) := do
  let ((h, q), _) ← q.clear h
  h.free q.head

/-- The calls of a queue. -/
inductive Call (T : Type)
  | pushBack (t : T)
  | pushBackMove (t : T)
  | pushFront (t : T)
  | popBack
  | popFront
  | head
  | tail
  | at' (pos : Int32)
  | size
  | isEmpty
  | clear
  deriving DecidableEq

/-- One call. -/
def call [Inhabited T] (build : Build) (q : Queue) (h : Heap (Node T)) :
    Call T → Option (State T × Answer T)
  | .pushBack t => q.pushBack build h t
  | .pushBackMove t => q.pushBackMove build h t
  | .pushFront t => q.pushFront build h t
  | .popBack => q.popBack h
  | .popFront => q.popFront h
  | .head => q.front h
  | .tail => q.rear h
  | .at' pos => q.at' h pos
  | .size => some ((h, q), .size q.size.toNat)
  | .isEmpty => some ((h, q), .empty (decide (q.size = 0)))
  | .clear => q.clear h

/-- A queue from its construction. -/
def queue (build : Build) (T : Type) [Inhabited T] :
    Machine (State T) (Call T) (Answer T) where
  start := construct .empty
  exec σ := σ.2.call build σ.1

/-! ## What a queue is for -/

/-- A list that grows and shrinks at both ends, up to where an assertion stops it. -/
def deque (build : Build) (T : Type) : Total (List T) (Call T) (Answer T) where
  start := []
  next ts
    | .pushBack t | .pushBackMove t =>
      if build.Stops (ts.length + 1 ≤ maxSize.toNat) then (ts, .aborted) else (ts ++ [t], .done)
    | .pushFront t =>
      if build.Stops (ts.length + 1 ≤ maxSize.toNat) then (ts, .aborted) else (t :: ts, .done)
    | .popBack => (ts.dropLast, ts.getLast?.elim .outOfRange .value)
    | .popFront => (ts.tail, ts.head?.elim .outOfRange .value)
    | .head => (ts, ts.head?.elim .outOfRange .value)
    | .tail => (ts, ts.getLast?.elim .outOfRange .value)
    | .at' pos =>
      (ts, if pos.toInt < 0 then .outOfRange else ts[pos.toInt.toNat]?.elim .outOfRange .value)
    | .size => (ts, .size ts.length)
    | .isEmpty => (ts, .empty ts.isEmpty)
    | .clear => ([], .done)

/-- The size of a list as a queue counts it. -/
def count (ts : List T) : UInt32 := UInt32.ofNat ts.length

/-- The same with a size that wraps: of `2 ^ 32` elements it counts none. -/
def wrapping (build : Build) (T : Type) : Total (List T) (Call T) (Answer T) where
  start := []
  next ts
    | .pushBack t | .pushBackMove t =>
      if build.Stops (count ts + 1 ≤ maxSize) then (ts, .aborted) else (ts ++ [t], .done)
    | .pushFront t =>
      if build.Stops (count ts + 1 ≤ maxSize) then (ts, .aborted) else (t :: ts, .done)
    | .popBack =>
      if count ts = 0 then (ts, .outOfRange)
      else (ts.dropLast, ts.getLast?.elim .outOfRange .value)
    | .popFront =>
      if count ts = 0 then (ts, .outOfRange) else (ts.tail, ts.head?.elim .outOfRange .value)
    | .head => (ts, if count ts = 0 then .outOfRange else ts.head?.elim .outOfRange .value)
    | .tail => (ts, if count ts = 0 then .outOfRange else ts.getLast?.elim .outOfRange .value)
    | .at' pos =>
      (ts, if pos.toInt < 0 ∨ pos.toUInt32 ≥ count ts then .outOfRange
        else ts[pos.toInt.toNat]?.elim .outOfRange .value)
    | .size => (ts, .size (count ts).toNat)
    | .isEmpty => (ts, .empty (decide (count ts = 0)))
    | .clear => ([], .done)

/-- How many elements the size can count: as many as the assertion lets in, or as many as
an unsigned number can. -/
def limit : Build → Nat
  | .debug => maxSize.toNat
  | .release => 2 ^ 32 - 1

end Queue

end LearnSpace.DataStructure
