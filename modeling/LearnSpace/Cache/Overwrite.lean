import LearnSpace.Cache.LruRing

/-!
# Putting a resident key

What `LRUContainers::put` owes a key that is already resident is `Overwrites`:
the new value, the front of the recency order, everything else untouched, and
a container whose every later call touches live nodes only. The branch for a
resident key files the outer, null `node` under the key, so the debt is never
paid: `put_resident_never_overwrites`.
-/

namespace LearnSpace.Cache

open Keel Function

/-- A call of the containers. -/
inductive ContainersCall (K V : Type)
  | put (key : K) (value : V)
  | get (key : K) (value : V)
  | removeLast

/-- The calls of `LRUContainers`, from its construction. -/
def lruContainers (K V : Type) [DecidableEq K] [Inhabited K] [Inhabited V] :
    Machine (LRUContainers K V) (ContainersCall K V) (Answer V) where
  start := .construct
  exec
    | σ, .put key value => do
      let σ ← σ.put key value
      return (σ, .done)
    | σ, .get key value => do
      let (σ, ret, value) ← σ.get key value
      return (σ, .found ret value)
    | σ, .removeLast => do
      let σ ← σ.removeLast
      return (σ, .done)

/-- The states runs of `put`, `get` and `removeLast` reach. -/
def ContainersReachable {K V : Type} [DecidableEq K] [Inhabited K] [Inhabited V]
    (σ : LRUContainers K V) : Prop :=
  ((lruContainers K V).toTSys (fun _ _ => True)).Reachable σ

section Overwrite

variable {K V : Type} [DecidableEq K] [Inhabited K] [Inhabited V]

omit [DecidableEq K] [Inhabited K] [Inhabited V] in
/-- The ring of `σ`, most recent first, holds the pairs `l`. -/
def Walks (σ : LRUContainers K V) (l : List (K × V)) : Prop :=
  ∃ as, RingOf σ as ∧ as.map (entryOf σ.heap) = l.map some

/-- `σ'` is `σ` with the resident key `k` overwritten by `v`. -/
structure Overwrites (σ : LRUContainers K V) (k : K) (v : V) (σ' : LRUContainers K V) :
    Prop where
  resident : ∀ k', σ'.Resident k' ↔ σ.Resident k'
  size : σ'.size = σ.size
  nextGet : ∀ w, ∃ σ'', σ'.get k w = some (σ'', true, v)
  mostRecent : ∃ l, Walks σ' ((k, v) :: l)
  others : ∀ l l', Walks σ l → Walks σ' l' →
    l'.filter (fun e => e.1 ≠ k) = l.filter (fun e => e.1 ≠ k)
  safe : ∀ calls, (lruContainers K V).run σ' calls ≠ none

omit [Inhabited K] [Inhabited V] in
/-- After `put` of a resident key, the key is filed under the null pointer. -/
theorem put_resident_null {σ σ' : LRUContainers K V} {k : K} {v : V}
    (hk : σ.Resident k) (hput : σ.put k v = some σ') : σ'.nodeMap k = some null := by
  obtain ⟨p, hp⟩ := Option.ne_none_iff_exists'.mp hk
  simp only [LRUContainers.put, hp, Option.bind_eq_bind] at hput
  cases hmove : σ.moveNodeToHead p with
  | none => simp [hmove] at hput
  | some σ₁ =>
      simp only [hmove, Option.bind_some, pure, Option.some.injEq] at hput
      rw [← hput]
      exact update_self ..

omit [DecidableEq K] [Inhabited K] [Inhabited V] in
/-- A key filed under the null pointer cannot be got. -/
theorem get_null {σ : LRUContainers K V} {k : K} (hk : σ.nodeMap k = some null) (w : V) :
    σ.get k w = none := by
  simp [LRUContainers.get, hk, entryOf]

/-- **A resident key is never overwritten.** Whatever the reachable state, the
resident key and the value: `put` aborts, or leaves a container whose next
`get` of the key dereferences null. -/
theorem put_resident_never_overwrites (σ : LRUContainers K V) (_ : ContainersReachable σ)
    (k : K) (hk : σ.Resident k) (v : V) :
    ¬ ∃ σ', σ.put k v = some σ' ∧ Overwrites σ k v σ' := by
  rintro ⟨σ', hput, hover⟩
  obtain ⟨σ'', hget⟩ := hover.nextGet v
  rw [get_null (put_resident_null hk hput)] at hget
  cases hget

end Overwrite

/-- A container in which the key 1 holds 10. -/
def oneResident : LRUContainers Nat Nat :=
  ((LRUContainers.construct : LRUContainers Nat Nat).put 1 10).getD .construct

theorem oneResident_reachable : ContainersReachable oneResident :=
  .step (e := .put 1 10) (.init rfl) ⟨trivial, .done, rfl⟩

theorem oneResident_resident : oneResident.Resident 1 := by
  have h : (oneResident.nodeMap 1).isSome = true := by decide +kernel
  exact fun hnone => by rw [hnone] at h; cases h

/-- The container in which 1 holds 10, and `put(1, 20)`. -/
theorem put_resident_never_overwrites_one :
    ¬ ∃ σ', oneResident.put 1 20 = some σ' ∧ Overwrites oneResident 1 20 σ' :=
  put_resident_never_overwrites oneResident oneResident_reachable 1 oneResident_resident 20

/-- `put(1, 10)`, `put(1, 20)`, `get(1)`: the third call dereferences null. -/
theorem put_put_get_aborts :
    ContainersReachable oneResident ∧ oneResident.Resident 1 ∧
      (∃ σ', oneResident.put 1 20 = some σ' ∧ σ'.get 1 0 = none) ∧
      ¬ ∃ σ', oneResident.put 1 20 = some σ' ∧ Overwrites oneResident 1 20 σ' := by
  have hget : ∀ σ', oneResident.put 1 20 = some σ' → ∀ w, σ'.get 1 w = none :=
    fun σ' hput w => get_null (put_resident_null oneResident_resident hput) w
  refine ⟨oneResident_reachable, oneResident_resident, ?_, ?_⟩
  · have hput : (oneResident.put 1 20).isSome = true := by decide +kernel
    obtain ⟨σ', hσ'⟩ := Option.isSome_iff_exists.mp hput
    exact ⟨σ', hσ', hget σ' hσ' 0⟩
  · rintro ⟨σ', hput, hover⟩
    obtain ⟨σ'', hnext⟩ := hover.nextGet 0
    rw [hget σ' hput 0] at hnext
    cases hnext

end LearnSpace.Cache
