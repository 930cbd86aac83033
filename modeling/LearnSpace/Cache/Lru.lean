import Mathlib.Algebra.Group.Nat.Defs
import LearnSpace.Keel.Heap
import LearnSpace.Keel.Machine
import LearnSpace.Keel.While

/-!
# The LRU containers and the LRU cache

`LRUContainers` keeps its nodes in a doubly linked ring around a sentry,
finds them through a hash map and counts them in a 32-bit counter; `LRUCache`
adds a capacity. Every method is written as the source runs it, statement by
statement, in `Option`: `none` is a dereference of a null or dangling
pointer. An `unordered_map` is a function from keys to optional pointers, so
a key may be resident with a null pointer.
-/

namespace LearnSpace.Cache

open Keel

/-- `LRUContainers::LRUNode`. -/
structure LRUNode (K V : Type) where
  key : K
  value : V
  preNode : Ptr := null
  nextNode : Ptr := null

/-- `uint` arithmetic wraps at this modulus. -/
def uintSize : Nat := 2 ^ 32

section Links

variable {K V : Type}

/-- `p->nextNode_`. -/
def nextOf (h : Heap (LRUNode K V)) (p : Ptr) : Option Ptr :=
  (h.load p).map LRUNode.nextNode

/-- `p->preNode_`. -/
def preOf (h : Heap (LRUNode K V)) (p : Ptr) : Option Ptr :=
  (h.load p).map LRUNode.preNode

/-- `p->key_` and `p->value_`. -/
def entryOf (h : Heap (LRUNode K V)) (p : Ptr) : Option (K × V) :=
  (h.load p).map (fun node => (node.key, node.value))

/-- `p->nextNode_ = q`. -/
def setNext (h : Heap (LRUNode K V)) (p q : Ptr) : Option (Heap (LRUNode K V)) :=
  h.modify p (fun node => { node with nextNode := q })

/-- `p->preNode_ = q`. -/
def setPre (h : Heap (LRUNode K V)) (p q : Ptr) : Option (Heap (LRUNode K V)) :=
  h.modify p (fun node => { node with preNode := q })

end Links

/-- `LRUContainers`, with the heap its nodes live in. -/
structure LRUContainers (K V : Type) where
  heap : Heap (LRUNode K V)
  nodeMap : K → Option Ptr
  sentryNode : Ptr
  size : Nat

namespace LRUContainers

variable {K V : Type} [DecidableEq K]

/-- `LRUContainers()`: the sentry is linked to itself. -/
def construct [Inhabited K] [Inhabited V] : LRUContainers K V :=
  let sentry := (Heap.empty (α := LRUNode K V)).brk
  { heap := (Heap.empty.alloc
      { key := default, value := default, preNode := sentry, nextNode := sentry }).2
    nodeMap := fun _ => none
    sentryNode := sentry
    size := 0 }

omit [DecidableEq K] in
/-- `insertToHead`. -/
def insertToHead (σ : LRUContainers K V) (node : Ptr) : Option (LRUContainers K V) := do
  let next ← nextOf σ.heap σ.sentryNode
  let heap ← setNext σ.heap node next
  let heap ← setPre heap node σ.sentryNode
  let heap ← setNext heap σ.sentryNode node
  let next ← nextOf heap node
  let heap ← setPre heap next node
  return { σ with heap := heap }

omit [DecidableEq K] in
/-- `moveNodeToHead`. -/
def moveNodeToHead (σ : LRUContainers K V) (node : Ptr) : Option (LRUContainers K V) := do
  let pre ← preOf σ.heap node
  if pre = σ.sentryNode then
    return σ
  let next ← nextOf σ.heap node
  let heap ← setNext σ.heap pre next
  let next ← nextOf heap node
  let pre ← preOf heap node
  let heap ← setPre heap next pre
  insertToHead { σ with heap := heap } node

/-- `removeLast`. -/
def removeLast (σ : LRUContainers K V) : Option (LRUContainers K V) := do
  if σ.size = 0 then
    return σ
  let lastNode ← preOf σ.heap σ.sentryNode
  let pre ← preOf σ.heap lastNode
  let heap ← setNext σ.heap pre σ.sentryNode
  let pre ← preOf heap lastNode
  let heap ← setPre heap σ.sentryNode pre
  let (key, _) ← entryOf heap lastNode
  let heap ← heap.free lastNode
  return { σ with
    heap := heap
    nodeMap := Function.update σ.nodeMap key none
    size := (σ.size + (uintSize - 1)) % uintSize }

/-- `put(const Key&, const Value&)`. The pointer filed under the key at the
end is the outer `node`: the branch for a resident key declares a `node` of
its own, so the outer one is still null there. -/
def put (σ : LRUContainers K V) (key : K) (value : V) : Option (LRUContainers K V) := do
  let (σ, node) ←
    match σ.nodeMap key with
    | none => do
      let new := σ.heap.alloc { key := key, value := value }
      let σ ← insertToHead { σ with heap := new.2 } new.1
      pure ({ σ with size := (σ.size + 1) % uintSize }, new.1)
    | some inner => do
      let σ ← moveNodeToHead σ inner
      pure (σ, null)
  return { σ with nodeMap := Function.update σ.nodeMap key (some node) }

/-- `put(Key&&, Value&&)`, for a key that a move leaves as `residual`. A node that is made
takes the key; what is filed at the end is filed under what the parameter then holds. -/
def putMove (σ : LRUContainers K V) (key : K) (value : V) (residual : K) :
    Option (LRUContainers K V) := do
  let (σ, node, key) ←
    match σ.nodeMap key with
    | none => do
      let new := σ.heap.alloc { key := key, value := value }
      let σ ← insertToHead { σ with heap := new.2 } new.1
      pure ({ σ with size := (σ.size + 1) % uintSize }, new.1, residual)
    | some inner => do
      let σ ← moveNodeToHead σ inner
      pure (σ, null, key)
  return { σ with nodeMap := Function.update σ.nodeMap key (some node) }

omit [DecidableEq K] in
/-- `get`: the returned flag and what the out-parameter `value` holds. -/
def get (σ : LRUContainers K V) (key : K) (value : V) :
    Option (LRUContainers K V × Bool × V) :=
  match σ.nodeMap key with
  | none => some (σ, false, value)
  | some node => do
    let (_, value) ← entryOf σ.heap node
    let σ ← moveNodeToHead σ node
    return (σ, true, value)

/-- One round of the loop of `clear`, at a node that is not the sentry: on to the next one,
and the one before that is deleted. No link of a ring is null, so there is always one to
delete. -/
def clearRound (heap : Heap (LRUNode K V)) (node : Ptr) :
    Option (Heap (LRUNode K V) × Ptr) := do
  let node ← nextOf heap node
  let pre ← preOf heap node
  let heap ← heap.free pre
  return (heap, node)

omit [DecidableEq K] in
theorem clearRound_live {heap heap' : Heap (LRUNode K V)} {node node' : Ptr}
    (h : clearRound heap node = some (heap', node')) : heap'.live.card < heap.live.card := by
  simp only [clearRound, Option.bind_eq_bind, Option.bind_eq_some_iff] at h
  obtain ⟨next, -, pre, -, heap₁, hfree, hpure⟩ := h
  cases hpure
  exact Heap.card_live_free hfree

/-- The loop of `clear`. -/
def clearLoop (sentryNode : Ptr) :
    While (Heap (LRUNode K V) × Ptr) Unit (Heap (LRUNode K V)) where
  body s :=
    if s.2 = sentryNode then .ok (.inr s.1)
    else
      match clearRound s.1 s.2 with
      | some s' => .ok (.inl s')
      | none => .error ()
  measure s := s.1.live.card
  decreases s s' h := by
    split at h
    · cases h
    · split at h
      · cases h
        exact clearRound_live ‹_›
      · cases h

omit [DecidableEq K] in
/-- `clear`. -/
def clear (σ : LRUContainers K V) : Option (LRUContainers K V) := do
  let node ← nextOf σ.heap σ.sentryNode
  let heap ← ((clearLoop σ.sentryNode).run (σ.heap, node)).toOption
  return { σ with heap := heap, size := 0, nodeMap := fun _ => none }

omit [DecidableEq K] in
/-- `~LRUContainers()`: the heap that is left. -/
def destruct (σ : LRUContainers K V) : Option (Heap (LRUNode K V)) := do
  let σ ← σ.clear
  σ.heap.free σ.sentryNode

/-- A key is resident when `m_nodeMap` has it. -/
def Resident (σ : LRUContainers K V) (k : K) : Prop := σ.nodeMap k ≠ none

end LRUContainers

/-- `LRUCache`. -/
structure LRUCache (K V : Type) where
  containers : LRUContainers K V
  capacity : Nat

namespace LRUCache

variable {K V : Type} [DecidableEq K]

/-- `LRUCache(uint capacity)`. -/
def construct [Inhabited K] [Inhabited V] (capacity : Nat) : LRUCache K V where
  containers := .construct
  capacity := capacity

/-- `put(const Key&, const Value&)`. -/
def put (σ : LRUCache K V) (key : K) (value : V) : Option (LRUCache K V) := do
  let containers ← σ.containers.put key value
  if containers.size > σ.capacity then
    let containers ← containers.removeLast
    return { σ with containers := containers }
  return { σ with containers := containers }

omit [DecidableEq K] in
/-- `get`. -/
def get (σ : LRUCache K V) (key : K) (value : V) : Option (LRUCache K V × Bool × V) := do
  let (containers, ret, value) ← σ.containers.get key value
  return ({ σ with containers := containers }, ret, value)

end LRUCache

/-- A call of the cache; `get` brings the content of its out-parameter. -/
inductive Call (K V : Type)
  | get (key : K) (value : V)
  | put (key : K) (value : V)

/-- What a call gives back. -/
inductive Answer (V : Type)
  | found (ret : Bool) (value : V)
  | done

/-- The calls of an `LRUCache` of capacity `c`, from its construction. -/
def lruCache (K V : Type) [DecidableEq K] [Inhabited K] [Inhabited V] (c : Nat) :
    Machine (LRUCache K V) (Call K V) (Answer V) where
  start := .construct c
  exec
    | σ, .get key value => do
      let (σ, ret, value) ← σ.get key value
      return (σ, .found ret value)
    | σ, .put key value => do
      let σ ← σ.put key value
      return (σ, .done)

/-- One turn of the loop of `main`: get the key and, on a miss, put what the
loader has for it. The output is the value of a hit. -/
def LRUCache.serve {K V : Type} [DecidableEq K] [Inhabited V] (load : K → Option V)
    (σ : LRUCache K V) (key : K) : Option (LRUCache K V × Option V) := do
  let (σ, ret, value) ← σ.get key default
  if ret then
    return (σ, some value)
  match load key with
  | some v =>
    let σ ← σ.put key v
    return (σ, none)
  | none => return (σ, none)

/-- The loop of `main` over an `LRUCache` of capacity `c`. -/
def cacheAside {K V : Type} [DecidableEq K] [Inhabited K] [Inhabited V]
    (load : K → Option V) (c : Nat) : Machine (LRUCache K V) K (Option V) where
  start := .construct c
  exec := LRUCache.serve load

end LearnSpace.Cache
