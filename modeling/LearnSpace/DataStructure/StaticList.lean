import Mathlib.Algebra.Group.Nat.Defs
import LearnSpace.Keel.TSys
import LearnSpace.DataStructure.Vector

/-!
# The list in an array

`MContainer::StaticList` for a trivially copyable `T`. Its nodes are the slots of one
array, which nobody else has, and its links are indices into it. Slot 0 is the head: its
`next` is the first element and its `previous` the last one. A slot with `previous` -1 is
free. `none` is an access outside the array, or an element that was never assigned; a
failed assertion ends the process and leaves no list either.

Sizes are natural numbers, since they stay below the bound of this container, far from a
wrap. Indices are integers, as -1 is one of them.
-/

namespace LearnSpace.DataStructure

/-- `StaticList::Node`. -/
structure Slot (T : Type) where
  data : Option T
  next : Int
  previous : Int

/-- The fields of a `StaticList`. -/
structure StaticList (T : Type) where
  head : List (Slot T)
  size : Nat
  step : Nat
  capacity : Nat

namespace StaticList

variable {T : Type}

/-- `StaticList::m_maxSize`. -/
def maxSize : Nat := 0xFFFF

/-- `StaticList::m_stepUint`. -/
def stepUint : Nat := 10

/-- `ContainerBase::m_npos`. -/
def npos : Int := -1

/-- A node as `new` makes it. -/
def newSlot : Slot T where
  data := none
  next := npos
  previous := npos

/-- `StaticList()`. -/
def construct : StaticList T where
  head := List.replicate stepUint newSlot
  size := 0
  step := stepUint
  capacity := stepUint

/-! ## Accesses -/

/-- `m_head[i]`. -/
def slot (l : StaticList T) (i : Int) : Option (Slot T) :=
  if i < 0 then none else l.head[i.toNat]?

/-- `m_head[i].next`. -/
def nextOf (l : StaticList T) (i : Int) : Option Int := (l.slot i).map Slot.next

/-- `m_head[i].previous`. -/
def previousOf (l : StaticList T) (i : Int) : Option Int := (l.slot i).map Slot.previous

/-- `m_head[i].data`. -/
def dataOf (l : StaticList T) (i : Int) : Option T := (l.slot i).bind Slot.data

/-- A write to `m_head[i]`. -/
def modify (l : StaticList T) (i : Int) (f : Slot T → Slot T) : Option (StaticList T) := do
  let _ ← l.slot i
  return { l with head := l.head.modify i.toNat f }

/-- `n` links from `i` on. -/
def walk (link : Int → Option Int) : Nat → Int → Option Int
  | 0, i => some i
  | n + 1, i => (link i).bind (walk link n)

/-- `findNodeIndex`. Its loop counts `index` from 0 up to `pos`, or down to it from the
last position. -/
def findNodeIndex (l : StaticList T) (pos : Nat) : Option Int := do
  if pos ≥ l.size then
    return npos
  if pos > l.size / 2 then
    let findIndex ← l.previousOf 0
    walk l.previousOf (l.size - 1 - pos) findIndex
  else
    let findIndex ← l.nextOf 0
    walk l.nextOf pos findIndex

/-- `getFreeIndex`. -/
def getFreeIndex (l : StaticList T) : Int :=
  match (List.range' 1 (l.capacity - 1)).find? (fun i : Nat => l.previousOf i = some npos) with
  | some i => (i : Int)
  | none => npos

/-- `creatMemory`: a new array of `m_capacity` nodes, of which the first `m_size` ones are
copied. -/
def creatMemory (l : StaticList T) : Option (StaticList T) :=
  if l.size ≤ l.head.length ∧ l.size ≤ l.capacity then
    some { l with head := l.head.take l.size ++ List.replicate (l.capacity - l.size) newSlot }
  else none

/-- How `append` and `insert` end: the size counts up, and a list that is full grows. -/
def countUp (l : StaticList T) : Option (StaticList T) :=
  let l := { l with size := l.size + 1 }
  if l.size ≥ l.capacity then
    let capacity := if l.capacity + l.step ≥ maxSize then maxSize else l.capacity + l.step
    creatMemory { l with capacity := capacity }
  else some l

/-! ## Methods -/

/-- `append`. -/
def append (build : Build) (l : StaticList T) (t : T) : Option (StaticList T) := do
  if build.Stops (l.capacity ≤ maxSize) then
    none
  let l ← (if l.size = 0 then do
      let l ← l.modify 1 (fun _ => { data := some t, next := 2, previous := 1 })
      l.modify 0 (fun head => { head with next := 1, previous := 1 })
    else do
      let tail ← l.previousOf 0
      let newIndex := l.getFreeIndex
      let l ← l.modify newIndex (fun node => { node with data := some t, previous := tail })
      let l ← l.modify tail (fun node => { node with next := newIndex })
      l.modify 0 (fun head => { head with previous := newIndex }))
  l.countUp

/-- `removeAt(uint)`. -/
def removeAt (l : StaticList T) (pos : Nat) : Option (StaticList T) := do
  if pos ≥ l.size then
    return l
  let l ← (if pos = l.size - 1 then do
      let tail ← l.previousOf 0
      let previous ← l.previousOf tail
      let l ← l.modify previous (fun node => { node with next := npos })
      let previous ← l.previousOf tail
      let l ← l.modify 0 (fun head =>
        { head with previous := if previous = 0 then npos else previous })
      l.modify tail (fun node => { node with previous := npos })
    else do
      -- the links go past the node, which is left as it is
      let index ← l.findNodeIndex pos
      let previousIndex ← l.previousOf index
      let next ← l.nextOf index
      let l ← l.modify previousIndex (fun node => { node with next := next })
      l.modify next (fun node => { node with previous := previousIndex }))
  return { l with size := l.size - 1 }

/-- `clear`: the array is replaced by one as `StaticList()` makes it. -/
def clear (_ : StaticList T) : StaticList T := construct

/-- The loop that frees as many nodes as are counted, from `index` on. -/
def freeNodes : Nat → Int → StaticList T → Option (StaticList T)
  | 0, _, l => some l
  | len + 1, index, l => do
    let next ← l.nextOf index
    let l ← l.modify index (fun node => { node with previous := npos, next := npos })
    freeNodes len next l

/-- `removeAt(uint, uint)`. Its sums wrap. -/
def removeRange (l : StaticList T) (pos len : UInt32) : Option (StaticList T) := do
  if pos.toNat ≥ l.size then
    return l
  if len = 1 then
    l.removeAt pos.toNat
  else
    let len := if (pos + len).toNat ≥ l.size then l.size - pos.toNat else len.toNat
    let index ← l.findNodeIndex pos.toNat
    if (pos.toNat + len) % 2 ^ 32 = l.size then
      return l.clear
    else
      let endIndex ← walk l.nextOf len index
      let preIndex ← l.previousOf index
      let nextIndex ← l.nextOf endIndex
      let l ← l.modify preIndex (fun node => { node with next := nextIndex })
      let l ← (if nextIndex = npos then
          l.modify 0 (fun head => { head with previous := preIndex })
        else
          l.modify nextIndex (fun node => { node with previous := preIndex }))
      let l := { l with size := (l.size + 2 ^ 32 - len) % 2 ^ 32 }
      freeNodes len index l

/-- `insert`. -/
def insert (build : Build) (l : StaticList T) (pos : Nat) (t : T) : Option (StaticList T) := do
  if pos > l.size then
    return l
  if pos = l.size then
    l.append build t
  else
    let index ← l.findNodeIndex pos
    let previous ← l.previousOf index
    let newIndex := l.getFreeIndex
    let l ← l.modify newIndex (fun node => { node with data := some t })
    let l ← l.modify previous (fun node => { node with next := newIndex })
    let l ← l.modify newIndex (fun node => { node with next := index, previous := previous })
    -- the node that was at `pos` gets its own index, not the new one
    let l ← l.modify index (fun node => { node with previous := index })
    l.countUp

/-- What `at` gives back. -/
inductive Answer (T : Type)
  | value (t : T)
  | outOfRange
  deriving DecidableEq

/-- `at`. -/
def at' (l : StaticList T) (pos : Nat) : Option (Answer T) := do
  if pos ≥ l.size then
    return .outOfRange
  let index ← l.findNodeIndex pos
  let t ← l.dataOf index
  return .value t

/-! ## What the list is for -/

/-- The slots that `n` links from slot 0 lead through. -/
def follow (link : Int → Option Int) : Nat → Int → Option (List Int)
  | 0, _ => some []
  | n + 1, i => do
    let j ← link i
    let js ← follow link n j
    return j :: js

/-- The list holds the sequence `ts` in the slots `slots`: they are distinct ones behind
the head, linked in this order in both directions, `at` finds each element, and all other
slots are free. -/
structure Holds (l : StaticList T) (ts : List T) (slots : List Int) : Prop where
  size : l.size = ts.length
  inside : ∀ i ∈ slots, 1 ≤ i ∧ i < l.capacity
  nodup : slots.Nodup
  forwards : follow l.nextOf l.size 0 = some slots
  backwards : follow l.previousOf l.size 0 = some slots.reverse
  data : slots.map l.dataOf = ts.map some
  at' : ∀ pos, l.at' pos = some (ts[pos]?.elim .outOfRange .value)
  free : ∀ i : Nat, 1 ≤ i → i < l.capacity → (i : Int) ∉ slots → l.previousOf i = some npos

end StaticList

end LearnSpace.DataStructure
