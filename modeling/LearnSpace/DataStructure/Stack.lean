import LearnSpace.DataStructure.Vector

/-!
# The stack

`MContainer::Stack` over its base class `Vector`. Beside the size of the vector it keeps
an `int` of its own, the position of the element on top and -1 when there is none. To
count it beyond the range of `int` is undefined.

The move constructor passes its argument on as an lvalue, which copies. The two assignment
operators do not compile where they are used, and are left out.
-/

namespace LearnSpace.DataStructure

open Keel Function

/-- The fields of a `Stack`. -/
structure Stack where
  vector : Vector
  top : Int32

namespace Stack

/-- `ContainerBase::m_npos`. -/
def npos : Int32 := -1

/-- What a call gives back. -/
inductive Answer (T : Type)
  | done
  | value (t : T)
  | isEmpty (b : Bool)
  | outOfRange
  | aborted

variable {T : Type}

/-- A stack in the heap of its array. -/
abbrev State (T : Type) := Arrays T × Stack

/-- `m_top++`. -/
def increment (n : Int32) : Option Int32 := if n = Int32.maxValue then none else some (n + 1)

/-- `m_top--`. -/
def decrement (n : Int32) : Option Int32 := if n = Int32.minValue then none else some (n - 1)

/-- `Stack()`; no stack where the assertion of the vector ends the process. -/
def construct (build : Build) (h : Arrays T) : Arrays T × Option Stack :=
  let new := Vector.construct build h 10
  (new.1, new.2.map (fun v => { vector := v, top := npos }))

/-- `Stack(const Stack&)`, and `Stack(Stack&&)` as well. -/
def copyConstruct (h : Arrays T) (t : Stack) : Option (State T) := do
  let (h, v) ← Vector.copyConstruct h t.vector
  return (h, { vector := v, top := t.top })

/-- `isEmpty`. -/
def isEmpty (s : Stack) : Bool := s.top = npos

/-- What `top` and `pop` make of an answer of `last`: an exception goes through. -/
def Answer.ofVector : Vector.Answer T → Answer T
  | .done => .done
  | .value t => .value t
  | .outOfRange => .outOfRange
  | .aborted => .aborted

/-- `top`. -/
def top' (s : Stack) (h : Arrays T) : Option (State T × Answer T) := do
  let ((h, v), answer) ← s.vector.last h
  return ((h, { s with vector := v }), .ofVector answer)

/-- `push`. -/
def push (build : Build) (s : Stack) (h : Arrays T) (t : T) :
    Option (State T × Answer T) := do
  match ← s.vector.append build h t with
  | ((h, v), .aborted) => return ((h, { s with vector := v }), .aborted)
  | ((h, v), _) =>
    let top ← increment s.top
    return ((h, { vector := v, top := top }), .done)

/-- `pop`. -/
def pop (s : Stack) (h : Arrays T) : Option (State T × Answer T) := do
  match ← s.vector.last h with
  | ((h, v), .value t) =>
    -- the parameter is unsigned, the argument is not
    let ((h, v), _) ← v.removeAt h s.top.toUInt32
    let top ← decrement s.top
    return ((h, { vector := v, top := top }), .value t)
  | ((h, v), answer) => return ((h, { s with vector := v }), .ofVector answer)

/-- `clear`. -/
def clear (s : Stack) (h : Arrays T) : Option (State T) := do
  let (h, v) ← s.vector.clear h
  return (h, { vector := v, top := npos })

/-- The calls of a stack. -/
inductive Call (T : Type)
  | push (t : T)
  | pop
  | top
  | clear
  | isEmpty

/-- One call. -/
def call (build : Build) (s : Stack) (h : Arrays T) : Call T → Option (State T × Answer T)
  | .push t => s.push build h t
  | .pop => s.pop h
  | .top => s.top' h
  | .clear => (s.clear h).map (·, .done)
  | .isEmpty => some ((h, s), .isEmpty s.isEmpty)

/-- The calls that keep the position on top within the range of its type. -/
def Fits (s : Stack) : Call T → Prop
  | .push _ => s.vector.size < 0x80000000
  | .pop | .top | .clear | .isEmpty => True

instance (s : Stack) : (c : Call T) → Decidable (s.Fits c)
  | .push _ => inferInstanceAs (Decidable (_ < _))
  | .pop | .top | .clear | .isEmpty => .isTrue trivial

/-! ## Pools -/

/-- Stacks under names, in one heap. -/
structure Pool (ι T : Type) where
  heap : Arrays T
  stack : ι → Option Stack

namespace Pool

/-- What a client does with a pool. -/
inductive Use (ι T : Type)
  | construct (x : ι)
  | copyConstruct (x y : ι)
  | moveConstruct (x y : ι)
  | call (x : ι) (c : Call T)
  | destroy (x : ι)

variable {ι : Type} [DecidableEq ι]

/-- No stacks at all. -/
def initial : Pool ι T where
  heap := .empty
  stack _ := none

/-- The pool with another stack under the name `x`. -/
def put (σ : Pool ι T) (x : ι) (state : Arrays T × Option Stack) : Pool ι T where
  heap := state.1
  stack := update σ.stack x state.2

/-- A step of the client. -/
def use (build : Build) (σ : Pool ι T) : Use ι T → Option (Pool ι T × Answer T)
  | .construct x => some (σ.put x (Stack.construct build σ.heap), .done)
  | .copyConstruct x y | .moveConstruct x y => do
    let t ← σ.stack y
    let (h, s) ← Stack.copyConstruct σ.heap t
    return (σ.put x (h, s), .done)
  | .call x c => do
    let s ← σ.stack x
    let ((h, s), answer) ← s.call build σ.heap c
    return (σ.put x (h, s), answer)
  | .destroy x => do
    let s ← σ.stack x
    -- the destructor of the stack is empty, that of the vector clears it
    let (h, _) ← s.vector.clear σ.heap
    return (σ.put x (h, none), .done)

/-- What a client may do: construct under a free name, use what is constructed, and push
on stacks of less than 2^31 elements. -/
def Legal (σ : Pool ι T) : Use ι T → Prop
  | .construct x => (σ.stack x).isNone
  | .copyConstruct x y | .moveConstruct x y => (σ.stack x).isNone ∧ (σ.stack y).isSome
  | .call x c => ∃ s ∈ σ.stack x, s.Fits c
  | .destroy x => (σ.stack x).isSome

instance (σ : Pool ι T) : (u : Use ι T) → Decidable (σ.Legal u)
  | .construct _ | .destroy _ => inferInstanceAs (Decidable (_ = true))
  | .copyConstruct _ _ | .moveConstruct _ _ => inferInstanceAs (Decidable (_ ∧ _))
  | .call _ _ => inferInstanceAs (Decidable (∃ s ∈ _, _))

/-- A pool from its start. -/
def stackPool (build : Build) (ι T : Type) [DecidableEq ι] :
    Machine (Pool ι T) (Use ι T) (Answer T) where
  start := initial
  exec := use build

end Pool

/-! ## Last in, first out -/

/-- What a stack is for: the element that comes out is the last one that went in. The top
is at the end of the list. -/
def lifo (ts : List T) : Call T → List T × Answer T
  | .push t => (ts ++ [t], .done)
  | .pop => (ts.dropLast, ts.getLast?.elim .outOfRange .value)
  | .top => (ts, ts.getLast?.elim .outOfRange .value)
  | .clear => ([], .done)
  | .isEmpty => (ts, .isEmpty ts.isEmpty)

open Pool in
/-- What a pool is for: lists that have nothing to do with each other. -/
def lists (ι T : Type) [DecidableEq ι] :
    Total (ι → Option (List T)) (Use ι T) (Answer T) where
  start _ := none
  next tss
    | .construct x => (update tss x (some []), .done)
    | .copyConstruct x y | .moveConstruct x y => (update tss x (tss y), .done)
    | .call x c =>
      match tss x with
      | some ts => (update tss x (some (lifo ts c).1), (lifo ts c).2)
      | none => (tss, .done)
    | .destroy x => (update tss x none, .done)

end Stack

end LearnSpace.DataStructure
