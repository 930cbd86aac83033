import LearnSpace.Keel.TSys
import LearnSpace.DataStructure.QueueDelete

/-!
# Several queues in one heap

A pool has queues under names, all in one heap, and the operators that assign one to
another. Without the operators the queues stay apart: each keeps its list in nodes
that no other one has (`Apart`), in every state the pool reaches.
-/

namespace LearnSpace.DataStructure.Queue

open Keel Function

/-! ## The operators -/

/-- What a caller gets of a function with a result that control leaves at its end:
nothing that is defined, or what the statements have done, where a compiler lets it
pass. -/
inductive OffEnd
  | undefined
  | passes

def OffEnd.result {α : Type} : OffEnd → α → Option α
  | .undefined, _ => none
  | .passes, a => some a

section Operators

variable {T : Type}

/-- One turn of the loop of the copy: the heap, the next node of the source and the node
that was made. -/
def copyNode [Inhabited T] (h : Heap (Node T)) (srcPtr desPtr : Ptr) :
    Option (Heap (Node T) × Ptr × Ptr) := do
  let node := (newNode h).1
  let t ← dataOf (newNode h).2 srcPtr
  let h ← setData (newNode h).2 node t
  let h ← setNext h desPtr node
  let h ← setPrevious h node desPtr
  let srcPtr ← nextOf h srcPtr
  return (h, srcPtr, node)

/-- The loop of the copy. The last component counts the nodes there were at its start:
with more turns than that it meets a node twice, or one it has made, and never ends. -/
def copyLoop [Inhabited T] :
    While (Heap (Node T) × Ptr × Ptr × Nat) Unit (Heap (Node T) × Ptr) where
  body s :=
    if s.2.1 = null then .ok (.inr (s.1, s.2.2.1))
    else
      match s.2.2.2, copyNode s.1 s.2.1 s.2.2.1 with
      | left + 1, some (h, srcPtr, desPtr) => .ok (.inl (h, srcPtr, desPtr, left))
      | _, _ => .error ()
  measure s := s.2.2.2
  decreases s s' h := by
    split at h
    · cases h
    · split at h
      · cases h
        simp only [*]
        exact Nat.lt_succ_self _
      · cases h

/-- `operator=(const Queue&)` for another queue. There is no `return` at its end. -/
def copyAssign [Inhabited T] (off : OffEnd) (h : Heap (Node T)) (q s : Queue) :
    Option (Heap (Node T) × Queue) := do
  let srcPtr ← nextOf h s.head
  let (h, desPtr) ← (copyLoop.run (h, srcPtr, q.head, h.live.card)).toOption
  off.result (h, { q with size := s.size, tail := desPtr })

/-- `operator=(Queue&&)` for another queue: what it leaves of both. There is no `return`
at its end. -/
def moveAssign (off : OffEnd) (h : Heap (Node T)) (q s : Queue) :
    Option (Heap (Node T) × Queue × Queue) := do
  let next ← nextOf h s.head
  let h ← setNext h q.head next
  let h ← setNext h q.head null
  off.result (h, { q with tail := s.tail, size := s.size }, { s with size := 0 })

end Operators

/-! ## Pools -/

/-- Queues under names, in one heap. -/
structure Pool (ι T : Type) where
  heap : Heap (Node T)
  queue : ι → Option Queue

namespace Pool

/-- What a client does with a pool. -/
inductive Use (ι T : Type)
  | construct (x : ι)
  | call (x : ι) (c : Call T)
  | destroy (x : ι)

variable {ι T : Type} [DecidableEq ι]

/-- No queues at all. -/
def initial : Pool ι T where
  heap := .empty
  queue _ := none

/-- A new queue under the name `x`. -/
def construct [Inhabited T] (σ : Pool ι T) (x : ι) : Pool ι T :=
  let new := Queue.construct σ.heap
  { heap := new.1, queue := update σ.queue x (some new.2) }

/-- The pool after a step of the client. -/
def use [Inhabited T] (build : Build) (σ : Pool ι T) : Use ι T → Option (Pool ι T)
  | .construct x =>
    match σ.queue x with
    | some _ => none
    | none => some (σ.construct x)
  | .call x c => do
    let q ← σ.queue x
    let ((h, q), _) ← q.call build σ.heap c
    return { heap := h, queue := update σ.queue x (some q) }
  | .destroy x => do
    let q ← σ.queue x
    let h ← q.destroy σ.heap
    return { heap := h, queue := update σ.queue x none }

/-- The pools a client can reach from none at all. -/
def pools (build : Build) (ι T : Type) [DecidableEq ι] [Inhabited T] :
    TSys (Pool ι T) (Use ι T) where
  init σ := σ = initial
  step σ u σ' := σ.use build u = some σ'

/-- `x = y`. -/
def copyAssign [Inhabited T] (off : OffEnd) (σ : Pool ι T) (x y : ι) : Option (Pool ι T) := do
  if x = y then
    return σ
  let q ← σ.queue x
  let s ← σ.queue y
  let (h, q) ← Queue.copyAssign off σ.heap q s
  return { heap := h, queue := update σ.queue x (some q) }

/-- `x = std::move(y)`. -/
def moveAssign (off : OffEnd) (σ : Pool ι T) (x y : ι) : Option (Pool ι T) := do
  if x = y then
    return σ
  let q ← σ.queue x
  let s ← σ.queue y
  let (h, q, s) ← Queue.moveAssign off σ.heap q s
  return { heap := h, queue := update (update σ.queue y (some s)) x (some q) }

/-! ## Queues stay apart -/

variable {build : Build}

/-- Each queue keeps its list, in nodes of its own. -/
structure Apart (σ : Pool ι T) (ps : ι → List Ptr) (ts : ι → List T) : Prop where
  keeps : ∀ x q, σ.queue x = some q → Keeps σ.heap q (ps x) (ts x)
  disjoint : ∀ x y q s, x ≠ y → σ.queue x = some q → σ.queue y = some s →
    List.Disjoint (q.head :: ps x) (s.head :: ps y)

/-- The queue under one name changes: its nodes `as` become `bs`. -/
theorem Apart.turn {σ : Pool ι T} {ps : ι → List Ptr} {ts : ι → List T} (a : Apart σ ps ts)
    (x : ι) (new : Option Queue) (qs : List Ptr) (us : List T) {h : Heap (Node T)}
    {as bs : List Ptr} (hx : σ.heap.Exchange h as bs) (has : ∀ p ∈ as, p ∈ σ.heap.live)
    (hother : ∀ y s, x ≠ y → σ.queue y = some s → List.Disjoint as (s.head :: ps y))
    (hnew : ∀ q, new = some q → Keeps h q qs us ∧ q.head :: qs = bs) :
    Apart { heap := h, queue := update σ.queue x new } (update ps x qs) (update ts x us) := by
  -- the nodes of another queue are not touched
  have houtside : ∀ y s, x ≠ y → σ.queue y = some s → ∀ p ∈ s.head :: ps y,
      p ∉ bs ∧ h.cell p = σ.heap.cell p := by
    intro y s hxy hy p hp
    exact hx.other ((a.keeps y s hy).node_live hp) (fun hmem => hother y s hxy hy hmem hp)
  refine ⟨?_, ?_⟩
  · intro y q hq
    by_cases hxy : y = x
    · subst hxy
      have hq' : new = some q := by simpa using hq
      simp only [update_self]
      exact (hnew q hq').1
    · have hq' : σ.queue y = some q := by simpa [hxy] using hq
      simp only [update_of_ne hxy]
      exact (a.keeps y q hq').frame
        (fun p hp => (houtside y q (Ne.symm hxy) hq' p hp).2) (fun p => hx.lost has)
  · intro y z q s hyz hq hs
    by_cases hxy : y = x
    · subst hxy
      have hq' : new = some q := by simpa using hq
      have hs' : σ.queue z = some s := by simpa [Ne.symm hyz] using hs
      simp only [update_self, update_of_ne (Ne.symm hyz), (hnew q hq').2]
      exact fun p hp hp' => (houtside z s hyz hs' p hp').1 hp
    · have hq' : σ.queue y = some q := by simpa [hxy] using hq
      by_cases hxz : z = x
      · subst hxz
        have hs' : new = some s := by simpa using hs
        simp only [update_self, update_of_ne hyz, (hnew s hs').2]
        exact fun p hp hp' => (houtside y q (Ne.symm hyz) hq' p hp).1 hp'
      · have hs' : σ.queue z = some s := by simpa [hxz] using hs
        simp only [update_of_ne hxy, update_of_ne hxz]
        exact a.disjoint y z q s hyz hq' hs'

theorem Apart.use_construct [Inhabited T] {σ σ' : Pool ι T} {ps : ι → List Ptr} {ts : ι → List T}
    (a : Apart σ ps ts) {x : ι} (huse : σ.use build (.construct x) = some σ') :
    ∃ ps' ts', Apart σ' ps' ts' := by
  rw [use] at huse
  split at huse
  · cases huse
  · cases huse
    have hx : σ.heap.Exchange (Queue.construct σ.heap).1 [] [(Queue.construct σ.heap).2.head] :=
      .alloc σ.heap _ (fun q => by rw [List.mem_singleton, or_iff_left List.not_mem_nil]; rfl)
    refine ⟨_, _, a.turn x _ [] [] hx (fun p hp => absurd hp List.not_mem_nil) ?_ ?_⟩
    · intro y s _ _ p hp
      exact absurd hp List.not_mem_nil
    · rintro q ⟨⟩
      exact ⟨.inl (construct_rep σ.heap), rfl⟩

theorem Apart.use_call [Inhabited T] {σ σ' : Pool ι T} {ps : ι → List Ptr} {ts : ι → List T}
    (a : Apart σ ps ts) {x : ι} {c : Call T} (huse : σ.use build (.call x c) = some σ') :
    ∃ ps' ts', Apart σ' ps' ts' := by
  simp only [use, Option.bind_eq_bind, Option.bind_eq_some_iff] at huse
  obtain ⟨q, hq, ⟨⟨h, q'⟩, o⟩, hcall, hσ'⟩ := huse
  cases hσ'
  have k := a.keeps x q hq
  have hsafe : Safe (σ.heap, q) c := by
    by_contra hsafe
    rw [call_undefined k hsafe] at hcall
    cases hcall
  obtain ⟨τ, qs, hcall', k', hhead, hx⟩ := safe_call_spec k hsafe
  rw [hcall] at hcall'
  cases hcall'
  refine ⟨_, _,
    a.turn x (some q') qs ((wrapping build T).next (ts x) c).1 hx (fun p hp => k.node_live hp)
      ?_ ?_⟩
  · intro y s hxy hy
    exact a.disjoint x y q s hxy hq hy
  · rintro q'' ⟨⟩
    exact ⟨k', by rw [hhead]⟩

theorem Apart.use_destroy [Inhabited T] {σ σ' : Pool ι T} {ps : ι → List Ptr} {ts : ι → List T}
    (a : Apart σ ps ts) {x : ι} (huse : σ.use build (.destroy x) = some σ') :
    ∃ ps' ts', Apart σ' ps' ts' := by
  simp only [use, Option.bind_eq_bind, Option.bind_eq_some_iff] at huse
  obtain ⟨q, hq, h, hdestroy, hσ'⟩ := huse
  cases hσ'
  have k := a.keeps x q hq
  have hclear : Clearable (σ.heap, q) := by
    by_contra hclear
    rw [destroy_undefined k hclear] at hdestroy
    cases hdestroy
  obtain ⟨h', hdestroy', hx⟩ := destroy_deletes k hclear
  rw [hdestroy] at hdestroy'
  cases hdestroy'
  refine ⟨_, _, a.turn x none [] [] hx (fun p hp => k.node_live hp) ?_ ?_⟩
  · intro y s hxy hy
    exact a.disjoint x y q s hxy hq hy
  · rintro q'' ⟨⟩

theorem reachable_construct [Inhabited T] {σ : Pool ι T} {x : ι}
    (hσ : (pools build ι T).Reachable σ) (hx : σ.queue x = none) :
    (pools build ι T).Reachable (σ.construct x) := by
  have hstep : (pools build ι T).step σ (.construct x) (σ.construct x) := by
    show σ.use build (.construct x) = some (σ.construct x)
    rw [use, hx]
  exact .step hσ hstep

/-- The queues of every pool a client reaches are apart. -/
theorem apart_invariant [Inhabited T] (build : Build) :
    (pools build ι T).Invariant (fun σ => ∃ ps ts, Apart σ ps ts) := by
  refine TSys.Inductive.invariant ⟨?_, ?_⟩
  · rintro σ rfl
    exact ⟨fun _ => [], fun _ => [], ⟨nofun, nofun⟩⟩
  · rintro σ u σ' ⟨ps, ts, a⟩ huse
    cases u with
    | construct x => exact a.use_construct huse
    | call x c => exact a.use_call huse
    | destroy x => exact a.use_destroy huse

end Pool

end LearnSpace.DataStructure.Queue
