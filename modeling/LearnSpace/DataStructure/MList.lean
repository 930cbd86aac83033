import LearnSpace.Keel.Machine
import LearnSpace.DataStructure.Nodes

/-!
# The list

`MContainer::List`, statement by statement, over the heap its nodes live in. `none` is a
dereference of a null or a dangling pointer. `at` throws `std::out_of_range` outside the
list, which is answered as `outOfRange`; `swap` does too, but it is `noexcept`, so there
the process ends, which is answered as `terminated`.
-/

namespace LearnSpace.DataStructure

open Keel

/-- The fields of a `List`. -/
structure MList where
  head : Ptr
  tail : Ptr
  size : UInt32

namespace MList

/-- What a call gives back. -/
inductive Answer (T : Type)
  | done
  | value (t : T)
  | size (n : Nat)
  | outOfRange
  | terminated

variable {T : Type}

/-- A list in the heap of its nodes. -/
abbrev State (T : Type) := Heap (Node T) × MList

/-- `List()`. -/
def construct [Inhabited T] (h : Heap (Node T)) : State T :=
  let new := newNode h
  (new.2, { head := new.1, tail := null, size := 0 })

/-- The loop of `findNode`: along `next` or along `previous`, counting up or down. -/
def findLoop (h : Heap (Node T)) (nextMove : Bool) (pos : UInt32) :
    While (Ptr × UInt32) Unit Ptr where
  body s :=
    if s.1 = null then .ok (.inr null)
    else if s.2 = pos then .ok (.inr s.1)
    else
      match if nextMove then nextOf h s.1 else previousOf h s.1 with
      | some ptr => .ok (.inl (ptr, if nextMove then s.2 + 1 else s.2 - 1))
      | none => .error ()
  measure s := (if nextMove then pos - s.2 else s.2 - pos).toNat
  decreases := by
    intro s s' hbody
    split at hbody
    · cases hbody
    · split at hbody
      · cases hbody
      · rename_i hpos
        have hpos' : s.2.toNat ≠ pos.toNat := fun he => hpos (UInt32.toNat_inj.mp he)
        have hlt := s.2.toNat_lt
        have hlt' := pos.toNat_lt
        split at hbody
        · cases hbody
          cases nextMove <;>
            simp only [Bool.false_eq_true, if_false, if_true, UInt32.toNat_sub,
              UInt32.toNat_add, UInt32.toNat_one] <;> omega
        · cases hbody

/-- `findNode`. -/
def findNode (l : MList) (h : Heap (Node T)) (pos : UInt32) : Option Ptr := do
  if pos ≥ l.size then
    return null
  -- from the nearer end
  if pos < l.size / 2 then
    let ptr ← nextOf h l.head
    ((findLoop h true pos).run (ptr, 0)).toOption
  else
    ((findLoop h false pos).run (l.tail, l.size - 1)).toOption

/-- `append`. -/
def append [Inhabited T] (l : MList) (h : Heap (Node T)) (t : T) :
    Option (State T × Answer T) := do
  if l.size + 1 ≥ maxSize then
    return ((h, l), .done)
  let node := (newNode h).1
  let h ← setData (newNode h).2 node t
  if l.size = 0 then
    let h ← setNext h l.head node
    let h ← setPrevious h node l.head
    return ((h, { l with tail := node, size := l.size + 1 }), .done)
  let h ← setNext h l.tail node
  let h ← setPrevious h node l.tail
  return ((h, { l with tail := node, size := l.size + 1 }), .done)

/-- `removeAt(uint)`. -/
def removeAt (l : MList) (h : Heap (Node T)) (pos : UInt32) :
    Option (State T × Answer T) := do
  if pos ≥ l.size then
    return ((h, l), .done)
  let ptr ← l.findNode h pos
  -- `m_tail` is null for an empty list, never the head node
  let tail ← (if ptr = l.tail then do
      let previous ← previousOf h ptr
      if previous ≠ l.head then
        return previous
      else
        return null
    else
      return l.tail)
  let previous ← previousOf h ptr
  let next ← nextOf h ptr
  let h ← setNext h previous next
  let next ← nextOf h ptr
  let h ← (if next ≠ null then do
      let previous ← previousOf h ptr
      setPrevious h next previous
    else
      return h)
  let h ← h.free ptr
  return ((h, { l with tail := tail, size := l.size - 1 }), .done)

/-- `swap`. -/
def swap (l : MList) (h : Heap (Node T)) (first second : UInt32) :
    Option (State T × Answer T) := do
  if first ≥ l.size ∨ second ≥ l.size then
    return ((h, l), .terminated)
  let firstNode ← l.findNode h first
  let secondNode ← l.findNode h second
  let value ← dataOf h firstNode
  let data ← dataOf h secondNode
  let h ← setData h firstNode data
  let h ← setData h secondNode value
  return ((h, l), .done)

/-- `clear`. -/
def clear (l : MList) (h : Heap (Node T)) : Option (State T × Answer T) := do
  let ptr ← nextOf h l.head
  let h ← deleteFrom h ptr
  let h ← setNext h l.head null
  return ((h, { l with size := 0, tail := null }), .done)

/-- `at`. -/
def at' (l : MList) (h : Heap (Node T)) (pos : UInt32) : Option (State T × Answer T) := do
  if pos ≥ l.size then
    return ((h, l), .outOfRange)
  let node ← l.findNode h pos
  let t ← dataOf h node
  return ((h, l), .value t)

/-- The calls of a list. -/
inductive Call (T : Type)
  | append (t : T)
  | removeAt (pos : UInt32)
  | swap (first second : UInt32)
  | clear
  | at' (pos : UInt32)
  | size

/-- One call. -/
def call [Inhabited T] (l : MList) (h : Heap (Node T)) : Call T → Option (State T × Answer T)
  | .append t => l.append h t
  | .removeAt pos => l.removeAt h pos
  | .swap first second => l.swap h first second
  | .clear => l.clear h
  | .at' pos => l.at' h pos
  | .size => some ((h, l), .size l.size.toNat)

/-- A list from its construction. -/
def list (T : Type) [Inhabited T] : Machine (State T) (Call T) (Answer T) where
  start := construct .empty
  exec σ := σ.2.call σ.1

/-- What a list is for: a sequence, of fewer than `maxSize` elements. -/
def sequence (T : Type) : Total (List T) (Call T) (Answer T) where
  start := []
  next ts
    | .append t => (if ts.length + 1 < maxSize.toNat then ts ++ [t] else ts, .done)
    | .removeAt pos => (ts.eraseIdx pos.toNat, .done)
    | .swap first second =>
      if first.toNat < ts.length ∧ second.toNat < ts.length then
        (swapAt ts first.toNat second.toNat, .done)
      else (ts, .terminated)
    | .clear => ([], .done)
    | .at' pos => (ts, ts[pos.toNat]?.elim .outOfRange .value)
    | .size => (ts, .size ts.length)

end MList

end LearnSpace.DataStructure
