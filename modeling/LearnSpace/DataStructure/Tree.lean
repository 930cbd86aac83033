import LearnSpace.Keel.Fuel
import LearnSpace.DataStructure.Queue
import LearnSpace.DataStructure.Stack

/-!
# Tree traversals

The function templates of `Tree.hpp`, over trees as the interface shows them. A visitor
is a functor, which is passed by value: each recursive call gets a copy of its state as
it is at that moment, while what it refers to outside is shared by all copies. It answers
whether the traversal should stop.

The versions with an explicit stack, and the one level by level, have `Stack` and `SQueue`
as local variables. Their loops take fuel; `none` is an iteration too many for it, or a
call on a stack or a queue that is not defined.
-/

namespace LearnSpace.DataStructure

open Keel

/-- A `Tree`: behind the last node of a branch there is one that is not valid. -/
inductive Tree (T : Type)
  | invalid
  | node (left : Tree T) (data : T) (right : Tree T)

namespace Tree

variable {T S W : Type}

instance : Inhabited (Tree T) := ⟨.invalid⟩

/-- `valid`. -/
def valid : Tree T → Bool
  | .invalid => false
  | .node _ _ _ => true

/-- A functor with a state `S` of its own, in a world `W`. The answer `true` asks to stop. -/
abbrev Visitor (T S W : Type) := S → W → T → Bool × S × W

/-! ## Recursive traversals -/

/-- `preorderTraversal`: the world it leaves. -/
def preorderTraversal (visitor : Visitor T S W) : Tree T → S → W → W
  | .invalid, _, w => w
  | .node left data right, s, w =>
    let called := visitor s w data
    if called.1 then called.2.2
    else
      let w := preorderTraversal visitor left called.2.1 called.2.2
      preorderTraversal visitor right called.2.1 w

/-- `inorderTraversal`. -/
def inorderTraversal (visitor : Visitor T S W) : Tree T → S → W → W
  | .invalid, _, w => w
  | .node left data right, s, w =>
    let w := inorderTraversal visitor left s w
    let called := visitor s w data
    if called.1 then called.2.2
    else inorderTraversal visitor right called.2.1 called.2.2

/-- `postorderTraversal`. Its `return` is the last statement, whatever the answer. -/
def postorderTraversal (visitor : Visitor T S W) : Tree T → S → W → W
  | .invalid, _, w => w
  | .node left data right, s, w =>
    let w := postorderTraversal visitor left s w
    let w := postorderTraversal visitor right s w
    (visitor s w data).2.2

/-! ## Traversals with a stack -/

/-- The stacks that are local variables. -/
inductive Local
  | stack
  | stack1
  | stack2
  deriving DecidableEq

/-- The local stacks. They hold pointers to nodes, which are not changed meanwhile. -/
abbrev Locals (T : Type) := Stack.Pool Local (Tree T)

/-- A statement that concerns a local stack. -/
def Locals.act (build : Build) (σ : Locals T) (u : Stack.Pool.Use Local (Tree T)) :
    Option (Locals T) :=
  (σ.use build u).map Prod.fst

/-- `push`. -/
def Locals.push (build : Build) (σ : Locals T) (x : Local) (node : Tree T) :
    Option (Locals T) :=
  Locals.act build σ (.call x (.push node))

/-- `pop`, of a stack that was found not to be empty. -/
def Locals.pop (build : Build) (σ : Locals T) (x : Local) : Option (Locals T × Tree T) := do
  match ← σ.use build (.call x .pop) with
  | (σ, .value t) => return (σ, t)
  | _ => none

/-- `isEmpty`. -/
def Locals.isEmpty (σ : Locals T) (x : Local) : Option Bool := do
  let s ← σ.stack x
  return s.isEmpty

/-- An iteration of the loop of `preorderTraversalV2`. -/
def preorderBody (build : Build) (visitor : Visitor T S W) (q : Locals T × S × W) :
    Option ((Locals T × S × W) ⊕ (Locals T × W)) := do
  let (σ, s, w) := q
  if ← Locals.isEmpty σ .stack then
    return .inr (σ, w)
  let (σ, treeNode) ← Locals.pop build σ .stack
  match treeNode with
  | .invalid => none
  | .node left data right =>
    let called := visitor s w data
    if called.1 then
      return .inr (σ, called.2.2)
    -- the right child goes below the left one
    let σ ← (if right.valid then Locals.push build σ .stack right else return σ)
    let σ ← (if left.valid then Locals.push build σ .stack left else return σ)
    return .inl (σ, called.2)

/-- `preorderTraversalV2`. -/
def preorderTraversalV2 (build : Build) (visitor : Visitor T S W) (fuel : Nat)
    (node : Tree T) (s : S) (w : W) : Option W := do
  if ¬ node.valid then
    return w
  let σ ← Locals.act build Stack.Pool.initial (.construct .stack)
  let σ ← Locals.push build σ .stack node
  let (σ, w) ← Fuel.loop (preorderBody build visitor) fuel (σ, s, w)
  let _ ← Locals.act build σ (.destroy .stack)
  return w

/-- An iteration of the inner loop of `inorderTraversalV2`: it goes one node to the left. -/
def descendBody (build : Build) (q : Locals T × Tree T) :
    Option ((Locals T × Tree T) ⊕ Locals T) := do
  let (σ, currentNode) := q
  match currentNode with
  | .invalid => return .inr σ
  | .node left data right =>
    let σ ← Locals.push build σ .stack (.node left data right)
    return .inl (σ, left)

/-- An iteration of the outer loop. What decides about the `return` is the datum itself,
converted to `bool`. -/
def inorderBody (build : Build) (truthy : T → Bool) (fuel : Nat) (q : Locals T × Tree T) :
    Option ((Locals T × Tree T) ⊕ Locals T) := do
  let (σ, currentNode) := q
  let isEmpty ← Locals.isEmpty σ .stack
  if ¬ (currentNode.valid ∨ ¬ isEmpty) then
    return .inr σ
  let σ ← Fuel.loop (descendBody build) fuel (σ, currentNode)
  let (σ, currentNode) ← Locals.pop build σ .stack
  match currentNode with
  | .invalid => none
  | .node _ data right =>
    if truthy data then
      return .inr σ
    return .inl (σ, right)

/-- `inorderTraversalV2`. The functor is passed and not called. -/
def inorderTraversalV2 (build : Build) (truthy : T → Bool) (_visitor : Visitor T S W)
    (fuel : Nat) (node : Tree T) (_s : S) (w : W) : Option W := do
  if ¬ node.valid then
    return w
  let σ ← Locals.act build Stack.Pool.initial (.construct .stack)
  let σ ← Fuel.loop (inorderBody build truthy fuel) fuel (σ, node)
  let _ ← Locals.act build σ (.destroy .stack)
  return w

/-- An iteration of the first loop of `postorderTraversalV2`: it moves a node to `stack2`,
below its children. -/
def collectBody (build : Build) (σ : Locals T) : Option (Locals T ⊕ Locals T) := do
  if ← Locals.isEmpty σ .stack1 then
    return .inr σ
  let (σ, currentNode) ← Locals.pop build σ .stack1
  let σ ← Locals.push build σ .stack2 currentNode
  match currentNode with
  | .invalid => none
  | .node left _ right =>
    let σ ← (if left.valid then Locals.push build σ .stack1 left else return σ)
    let σ ← (if right.valid then Locals.push build σ .stack1 right else return σ)
    return .inl σ

/-- An iteration of the second loop: it visits a node of `stack2`. -/
def visitBody (build : Build) (visitor : Visitor T S W) (q : Locals T × S × W) :
    Option ((Locals T × S × W) ⊕ (Locals T × W)) := do
  let (σ, s, w) := q
  if ← Locals.isEmpty σ .stack2 then
    return .inr (σ, w)
  let (σ, currentNode) ← Locals.pop build σ .stack2
  match currentNode with
  | .invalid => none
  | .node _ data _ =>
    let called := visitor s w data
    if called.1 then
      return .inr (σ, called.2.2)
    return .inl (σ, called.2)

/-- `postorderTraversalV2`. -/
def postorderTraversalV2 (build : Build) (visitor : Visitor T S W) (fuel : Nat)
    (node : Tree T) (s : S) (w : W) : Option W := do
  if ¬ node.valid then
    return w
  let σ ← Locals.act build Stack.Pool.initial (.construct .stack1)
  let σ ← Locals.act build σ (.construct .stack2)
  let σ ← Locals.push build σ .stack1 node
  let σ ← Fuel.loop (collectBody build) fuel σ
  let (σ, w) ← Fuel.loop (visitBody build visitor) fuel (σ, s, w)
  let σ ← Locals.act build σ (.destroy .stack2)
  let _ ← Locals.act build σ (.destroy .stack1)
  return w

/-! ## The traversal with a queue -/

/-- `enqueue`, where its assertion does not end the process. -/
def enqueue (build : Build) (σ : Queue.State (Tree T)) (node : Tree T) :
    Option (Queue.State (Tree T)) := do
  match ← σ.2.pushBack build σ.1 node with
  | (σ, .done) => return σ
  | _ => none

/-- `dequeue`, of a queue that was found not to be empty. -/
def dequeue (σ : Queue.State (Tree T)) : Option (Queue.State (Tree T) × Tree T) := do
  match ← σ.2.popFront σ.1 with
  | (σ, .value t) => return (σ, t)
  | _ => none

/-- An iteration of the loop of `levelTraversal`. -/
def levelBody (build : Build) (visitor : Visitor T S W) (q : Queue.State (Tree T) × S × W) :
    Option ((Queue.State (Tree T) × S × W) ⊕ (Queue.State (Tree T) × W)) := do
  let (σ, s, w) := q
  if σ.2.size = 0 then
    return .inr (σ, w)
  let (σ, front) ← dequeue σ
  match front with
  | .invalid => return .inl (σ, s, w)
  | .node left data right =>
    let called := visitor s w data
    if called.1 then
      return .inr (σ, called.2.2)
    let σ ← (if left.valid then enqueue build σ left else return σ)
    let σ ← (if right.valid then enqueue build σ right else return σ)
    return .inl (σ, called.2)

/-- `levelTraversal`. -/
def levelTraversal (build : Build) (visitor : Visitor T S W) (fuel : Nat) (root : Tree T) (s : S)
    (w : W) : Option W := do
  let σ ← enqueue build (Queue.construct .empty) root
  let (σ, w) ← Fuel.loop (levelBody build visitor) fuel (σ, s, w)
  let _ ← σ.2.destroy σ.1
  return w

/-! ## Calls of the visitor -/

/-- The visitor with a record of its calls and their answers. -/
def recorded (visitor : Visitor T S W) : Visitor T S (W × List (T × Bool)) :=
  fun s w data =>
    let called := visitor s w.1 data
    (called.1, called.2.1, called.2.2, w.2 ++ [(data, called.1)])

/-- A visitor that goes on whatever it sees. -/
def NeverStops (visitor : Visitor T S W) : Prop := ∀ s w data, (visitor s w data).1 = false

/-- No call comes after one that asked to stop. -/
def StopsAtOnce (calls : List (T × Bool)) : Prop :=
  calls.Pairwise (fun earlier _ => earlier.2 = false)

instance (calls : List (T × Bool)) : Decidable (StopsAtOnce calls) :=
  inferInstanceAs (Decidable (calls.Pairwise _))

end Tree

end LearnSpace.DataStructure
