import LearnSpace.Cache.LruRing

/-!
# The cache under its client's discipline

`main` puts a key only after `get` has missed it. Under that discipline an
`LRUCache` of capacity `c` is a recency list bounded by `c`:

* `lruCache_refines_recency`: runs of `get` and `put` answer what the list
  answers, and the ring, the map and the counter describe the same list;
* `larger_cache_keeps_hits`: two caches driven by the same requests keep the
  inclusion property of the policy, so growing a cache loses no hit.
-/

namespace LearnSpace.Cache

open Keel Function

variable {K V : Type} [DecidableEq K]

/-! ## One call of the cache -/

/-- A cache of capacity `c` holds the recency list `l`. -/
structure Holds (c : Nat) (σ : LRUCache K V) (l : List (K × V)) : Prop where
  capacity : σ.capacity = c
  bounded : l.length ≤ c
  rep : ∃ as, Rep σ.containers as l

variable {c : Nat} {σ : LRUCache K V} {l : List (K × V)}

omit [DecidableEq K] in
theorem construct_holds [Inhabited K] [Inhabited V] (c : Nat) :
    Holds c (LRUCache.construct c : LRUCache K V) [] :=
  ⟨rfl, Nat.zero_le c, [], construct_rep⟩

omit [DecidableEq K] in
/-- Below the width of the counter, `size` is the length of the list. -/
theorem Holds.size_eq (h : Holds c σ l) (hc : c < uintSize) :
    σ.containers.size = l.length := by
  obtain ⟨as, hrep⟩ := h.rep
  rw [hrep.counted, Nat.mod_eq_of_lt (Nat.lt_of_le_of_lt h.bounded hc)]

/-- `get` answers what the list has and touches the key. -/
theorem cache_get (h : Holds c σ l) (k : K) (w : V) :
    ∃ σ', σ.get k w = some (σ', (Recency.lookup l k).isSome, (Recency.lookup l k).getD w) ∧
      Holds c σ' (Recency.touch l k) := by
  obtain ⟨as, hrep⟩ := h.rep
  cases hk : σ.containers.nodeMap k with
  | none =>
      refine ⟨σ, ?_, ?_⟩
      · simp [LRUCache.get, get_miss hk, hrep.lookup_eq_none hk]
      · rw [Recency.touch_of_none (hrep.lookup_eq_none hk)]
        exact h
  | some p =>
      obtain ⟨σ', as', v, hget, hlk, hrep'⟩ := get_hit hrep hk w
      refine ⟨{ σ with containers := σ' }, ?_, h.capacity, ?_, as', hrep'⟩
      · simp [LRUCache.get, hget, hlk]
      · rw [(Recency.touch_perm l k).length_eq]
        exact h.bounded

/-- `put` of a key that is not resident inserts its pair. -/
theorem cache_put (h : Holds c σ l) (hc : c < uintSize - 1) {k : K}
    (hk : ¬ σ.containers.Resident k) (v : V) :
    ∃ σ', σ.put k v = some σ' ∧ Holds c σ' (Recency.insert c l (k, v)) := by
  obtain ⟨as, hrep⟩ := h.rep
  obtain ⟨σ₁, p, hput, hrep₁⟩ := put_new hrep (not_not.mp hk) v
  have hsize : σ₁.size = l.length + 1 := by
    have hb := h.bounded
    rw [hrep₁.counted, List.length_cons, Nat.mod_eq_of_lt (by omega)]
  by_cases hlong : c < l.length + 1
  · -- one pair too many: the last one goes
    obtain ⟨σ₂, hrem, hrep₂⟩ := removeLast_rep hrep₁ (by omega)
    refine ⟨{ σ with containers := σ₂ }, ?_, h.capacity, Recency.length_insert_le h.bounded _, ?_⟩
    · have hgt : σ₁.size > σ.capacity := by
        rw [hsize, h.capacity]
        exact hlong
      simp [LRUCache.put, hput, if_pos hgt, hrem]
    · rw [Recency.insert, List.length_cons, if_pos hlong]
      exact ⟨_, hrep₂⟩
  · refine ⟨{ σ with containers := σ₁ }, ?_, h.capacity, Recency.length_insert_le h.bounded _, ?_⟩
    · have hle : ¬ σ₁.size > σ.capacity := by
        rw [hsize, h.capacity]
        exact hlong
      simp [LRUCache.put, hput, if_neg hle]
    · rw [Recency.insert, List.length_cons, if_neg hlong]
      exact ⟨_, hrep₁⟩

/-! ## Runs of `get` and `put` -/

/-- The purpose of the cache: a bounded recency list, with a record of the
value last put for each key. -/
structure Recent (K V : Type) where
  entries : List (K × V)
  lastPut : K → Option V

/-- The calls of the cache on a recency list of capacity `c`. -/
def recencyCache (K V : Type) [DecidableEq K] (c : Nat) :
    Total (Recent K V) (Call K V) (Answer V) where
  start := ⟨[], fun _ => none⟩
  next
    | a, .get k w =>
      match Recency.lookup a.entries k with
      | some v => ({ a with entries := Recency.touch a.entries k }, .found true v)
      | none => (a, .found false w)
    | a, .put k v =>
      (⟨Recency.insert c a.entries (k, v), update a.lastPut k (some v)⟩, .done)

/-- Every entry holds the value last put for its key. -/
def Recent.Fresh (a : Recent K V) : Prop := ∀ e ∈ a.entries, a.lastPut e.1 = some e.2

/-- The discipline of the client: a key is put only while it is absent. -/
def MissThenPut (σ : LRUCache K V) : Call K V → Prop
  | .get _ _ => True
  | .put k _ => ¬ σ.containers.Resident k

theorem insert_fresh {a : Recent K V} (h : a.Fresh) (hl : a.entries.length ≤ c) {k : K}
    (hk : k ∉ a.entries.map Prod.fst) (v : V) :
    Recent.Fresh ⟨Recency.insert c a.entries (k, v), update a.lastPut k (some v)⟩ := by
  intro e he
  have hmem : e ∈ Recency.insert c a.entries (k, v) := he
  rw [Recency.insert_eq_take hl] at hmem
  show update a.lastPut k (some v) e.1 = some e.2
  rcases List.mem_cons.mp (List.mem_of_mem_take hmem) with rfl | hold
  · exact update_self ..
  · have hne : e.1 ≠ k := fun he => hk (he ▸ List.mem_map_of_mem hold)
    rw [update_of_ne hne]
    exact h e hold

/-- One call: the cache answers like the recency list. -/
theorem lruCache_refines [Inhabited K] [Inhabited V] (hc : c < uintSize - 1) :
    (lruCache K V c).Refines MissThenPut (recencyCache K V c)
      (fun σ a => Holds c σ a.entries ∧ a.Fresh) where
  start := ⟨construct_holds c, fun e he => absurd he List.not_mem_nil⟩
  exec := by
    rintro σ a i ⟨hholds, hfresh⟩ hok
    cases i with
    | get k w =>
        obtain ⟨σ', hget, hholds'⟩ := cache_get hholds k w
        refine ⟨σ', ?_, ?_⟩
        · cases hlk : Recency.lookup a.entries k <;>
            simp [lruCache, recencyCache, hget, hlk]
        · cases hlk : Recency.lookup a.entries k with
          | none =>
              rw [Recency.touch_of_none hlk] at hholds'
              simpa [recencyCache, hlk] using ⟨hholds', hfresh⟩
          | some v =>
              simp only [recencyCache, hlk]
              exact ⟨hholds', fun e he =>
                hfresh e ((Recency.touch_perm a.entries k).mem_iff.mp he)⟩
    | put k v =>
        obtain ⟨σ', hput, hholds'⟩ := cache_put hholds hc hok v
        obtain ⟨as, hrep⟩ := hholds.rep
        refine ⟨σ', by simp [lruCache, recencyCache, hput], hholds', ?_⟩
        exact insert_fresh hfresh hholds.bounded (fun hk => hok ((hrep.resident_iff k).mpr hk)) v

/-- **Refinement.** A run of `get` and miss-then-`put` on a fresh cache of
capacity `c` never aborts and answers what the bounded recency list answers.
Afterwards the ring walked forwards is the list and walked backwards its
reverse, the map leads exactly from its keys to its nodes (`Rep`), the counter
is its length, and every entry holds the value last put for its key. -/
theorem lruCache_refines_recency [Inhabited K] [Inhabited V] (c : Nat)
    (hc : c < 2 ^ 32 - 1) (calls : List (Call K V))
    (hcalls : (lruCache K V c).Obeys MissThenPut (lruCache K V c).start calls) :
    let a := (recencyCache K V c).run (recencyCache K V c).start calls
    ∃ σ as, (lruCache K V c).run (lruCache K V c).start calls = some (σ, a.2) ∧
      Rep σ.containers as a.1.entries ∧ σ.containers.size = a.1.entries.length ∧
      a.1.entries.length ≤ c ∧ ∀ e ∈ a.1.entries, a.1.lastPut e.1 = some e.2 := by
  intro a
  obtain ⟨σ, hrun, hholds, hfresh⟩ := (lruCache_refines hc).run calls hcalls
  obtain ⟨as, hrep⟩ := hholds.rep
  refine ⟨σ, as, hrun, hrep, hholds.size_eq ?_, hholds.bounded, hfresh⟩
  unfold uintSize
  omega

/-- A miss, the put that follows it, and the hit that follows the put. -/
theorem lruCache_refines_recency_miss_put :
    ∃ σ as, (lruCache Nat Nat 1).run (lruCache Nat Nat 1).start
        [.get 1 7, .put 1 10, .get 1 7] =
        some (σ, [.found false 7, .done, .found true 10]) ∧
      Rep σ.containers as [(1, 10)] := by
  have h := lruCache_refines_recency (K := Nat) (V := Nat) 1 (by decide)
    [.get 1 7, .put 1 10, .get 1 7]
    (.cons trivial rfl (.cons (fun h => h rfl) rfl (.cons trivial rfl trivial)))
  obtain ⟨σ, as, hrun, hrep, -⟩ := h
  exact ⟨σ, as, hrun, hrep⟩

/-! ## The loop of `main` -/

/-- One turn of the loop of `main` is one request of the recency list. -/
theorem cacheAside_refines [Inhabited K] [Inhabited V] (load : K → Option V)
    (hc : c < uintSize - 1) :
    (cacheAside load c).Refines (fun _ _ => True) (Recency.client load c)
      (Holds c) where
  start := construct_holds c
  exec := by
    intro σ l k h _
    obtain ⟨σ', hget, hholds⟩ := cache_get h k default
    cases hlk : Recency.lookup l k with
    | some v =>
        refine ⟨σ', ?_, ?_⟩
        · simp [cacheAside, LRUCache.serve, hget, hlk, Recency.client, Recency.request]
        · simpa [Recency.client, Recency.request, hlk] using hholds
    | none =>
        rw [Recency.touch_of_none hlk] at hholds
        cases hload : load k with
        | none =>
            refine ⟨σ', ?_, ?_⟩
            · simp [cacheAside, LRUCache.serve, hget, hlk, hload, Recency.client,
                Recency.request]
            · simpa [Recency.client, Recency.request, hlk, hload] using hholds
        | some v =>
            obtain ⟨as, hrep⟩ := hholds.rep
            have habsent : ¬ σ'.containers.Resident k := by
              rw [hrep.resident_iff]
              exact Recency.lookup_eq_none_iff.mp hlk
            obtain ⟨σ'', hput, hholds'⟩ := cache_put hholds hc habsent v
            refine ⟨σ'', ?_, ?_⟩
            · simp [cacheAside, LRUCache.serve, hget, hlk, hload, hput, Recency.client,
                Recency.request]
            · simpa [Recency.client, Recency.request, hlk, hload] using hholds'

/-- **No anomaly.** Driven by the same requests and the same loader, the
smaller cache's resident keys are resident in the larger one, and each of its
hits is a hit there with the same value. -/
theorem larger_cache_keeps_hits [Inhabited K] [Inhabited V] (load : K → Option V)
    (c₁ c₂ : Nat) (hle : c₁ ≤ c₂) (hc : c₂ < 2 ^ 32 - 1) (ks : List K) :
    ∃ σ₁ σ₂ hits₁ hits₂,
      (cacheAside load c₁).run (cacheAside load c₁).start ks = some (σ₁, hits₁) ∧
      (cacheAside load c₂).run (cacheAside load c₂).start ks = some (σ₂, hits₂) ∧
      (∀ k, σ₁.containers.Resident k → σ₂.containers.Resident k) ∧
      List.Forall₂ (fun o₁ o₂ => ∀ v, o₁ = some v → o₂ = some v) hits₁ hits₂ := by
  have hc₁ : c₁ < uintSize - 1 := by
    unfold uintSize
    omega
  obtain ⟨σ₁, hrun₁, h₁⟩ := (cacheAside_refines load hc₁).run ks (Machine.obeys_true ..)
  obtain ⟨σ₂, hrun₂, h₂⟩ := (cacheAside_refines load hc).run ks (Machine.obeys_true ..)
  have hloaded : Recency.Loaded load [] := fun e he => absurd he List.not_mem_nil
  obtain ⟨hlist, hhits⟩ := Recency.run_request_take hle ks [] (Nat.zero_le _) hloaded
  rw [List.take_nil] at hlist hhits
  refine ⟨σ₁, σ₂, _, _, hrun₁, hrun₂, ?_, hhits⟩
  intro k hk
  obtain ⟨as₁, hrep₁⟩ := h₁.rep
  obtain ⟨as₂, hrep₂⟩ := h₂.rep
  rw [hrep₁.resident_iff] at hk
  rw [hrep₂.resident_iff]
  have hsub : ((Recency.client load c₁).run [] ks).1 =
      ((Recency.client load c₂).run [] ks).1.take c₁ := hlist
  obtain ⟨e, he, rfl⟩ := List.mem_map.mp hk
  refine List.mem_map_of_mem (List.mem_of_mem_take (i := c₁) ?_)
  exact hsub ▸ he

/-- The requests 1, 2, 1 hit once with capacity 2, and not with capacity 1. -/
theorem larger_cache_keeps_hits_one_two :
    ∃ σ₁ σ₂ : LRUCache Nat Nat,
      (cacheAside (some : Nat → Option Nat) 1).run (.construct 1) [1, 2, 1] =
        some (σ₁, [none, none, none]) ∧
      (cacheAside (some : Nat → Option Nat) 2).run (.construct 2) [1, 2, 1] =
        some (σ₂, [none, none, some 1]) ∧
      ∀ k, σ₁.containers.Resident k → σ₂.containers.Resident k := by
  obtain ⟨σ₁, σ₂, hits₁, hits₂, h₁, h₂, hres, -⟩ :=
    larger_cache_keeps_hits (some : Nat → Option Nat) 1 2 (by decide) (by decide) [1, 2, 1]
  have e₁ : ((cacheAside (some : Nat → Option Nat) 1).run (.construct 1) [1, 2, 1]).map
      Prod.snd = some [none, none, none] := by decide +kernel
  have e₂ : ((cacheAside (some : Nat → Option Nat) 2).run (.construct 2) [1, 2, 1]).map
      Prod.snd = some [none, none, some 1] := by decide +kernel
  have hits₁_eq : hits₁ = [none, none, none] :=
    Option.some.inj ((congrArg (Option.map Prod.snd) h₁).symm.trans e₁)
  have hits₂_eq : hits₂ = [none, none, some 1] :=
    Option.some.inj ((congrArg (Option.map Prod.snd) h₂).symm.trans e₂)
  rw [hits₁_eq] at h₁
  rw [hits₂_eq] at h₂
  exact ⟨σ₁, σ₂, h₁, h₂, hres⟩

end LearnSpace.Cache
