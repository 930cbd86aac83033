import Mathlib.Data.List.Nodup
import Mathlib.Data.List.Lookmap
import Mathlib.Data.List.TakeDrop
import LearnSpace.Keel.Machine

/-!
# Bounded recency lists

The least-recently-used policy in its own terms: a list of keys with values,
the most recently used first, kept within a capacity. `touch` moves a key to
the front; `insert` conses a pair and drops the last one when the list
outgrows its capacity.

`request` serves a key in the cache-aside way: a hit touches the key, a miss
inserts what the loader has. The policy has the inclusion property: truncating
the list of the larger capacity gives the list of the smaller one
(`run_request_take`), so growing the capacity never loses a hit.
-/

namespace Keel.Recency

variable {K V : Type*} [DecidableEq K]

/-- The value of a key. -/
def lookup (l : List (K × V)) (k : K) : Option V :=
  (l.find? (fun e => e.1 = k)).map Prod.snd

/-- A present key moves to the front; an absent one changes nothing. -/
def touch (l : List (K × V)) (k : K) : List (K × V) :=
  match lookup l k with
  | some v => (k, v) :: l.eraseP (fun e => e.1 = k)
  | none => l

/-- A new pair at the front; the last one goes when the list is too long. -/
def insert (c : Nat) (l : List (K × V)) (e : K × V) : List (K × V) :=
  if c < (e :: l).length then (e :: l).dropLast else e :: l

omit [DecidableEq K] in
theorem insert_eq_take {c : Nat} {l : List (K × V)} (hl : l.length ≤ c) (e : K × V) :
    insert c l e = (e :: l).take c := by
  unfold insert
  split
  · rename_i hlong
    have hlen : l.length = c := by
      simp only [List.length_cons] at hlong
      omega
    rw [List.dropLast_eq_take, List.length_cons, hlen, Nat.add_sub_cancel]
  · rename_i hshort
    rw [List.take_of_length_le (by omega)]

omit [DecidableEq K] in
theorem length_insert_le {c : Nat} {l : List (K × V)} (hl : l.length ≤ c) (e : K × V) :
    (insert c l e).length ≤ c := by
  rw [insert_eq_take hl, List.length_take]
  exact Nat.min_le_left _ _

@[simp] theorem lookup_nil (k : K) : lookup ([] : List (K × V)) k = none := rfl

theorem lookup_cons (e : K × V) (l : List (K × V)) (k : K) :
    lookup (e :: l) k = if e.1 = k then some e.2 else lookup l k := by
  unfold lookup
  rw [List.find?_cons]
  by_cases h : e.1 = k <;> simp [h]

theorem lookup_eq_none_iff {l : List (K × V)} {k : K} :
    lookup l k = none ↔ k ∉ l.map Prod.fst := by
  induction l with
  | nil => simp
  | cons e l ih =>
      rw [lookup_cons]
      by_cases h : e.1 = k
      · simp [h]
      · rw [if_neg h, ih, List.map_cons, List.mem_cons, not_or]
        exact ⟨fun hk => ⟨fun he => h he.symm, hk⟩, And.right⟩

/-- A found key sits behind entries of other keys. -/
theorem lookup_eq_some_split {l : List (K × V)} {k : K} {v : V} (h : lookup l k = some v) :
    ∃ xs ys, l = xs ++ (k, v) :: ys ∧ k ∉ xs.map Prod.fst := by
  induction l with
  | nil => simp at h
  | cons e l ih =>
      rw [lookup_cons] at h
      by_cases he : e.1 = k
      · rw [if_pos he] at h
        refine ⟨[], l, ?_, List.not_mem_nil⟩
        obtain ⟨k', v'⟩ := e
        cases he
        cases h
        rfl
      · rw [if_neg he] at h
        obtain ⟨xs, ys, rfl, hk⟩ := ih h
        refine ⟨e :: xs, ys, rfl, ?_⟩
        rw [List.map_cons, List.mem_cons, not_or]
        exact ⟨fun hk' => he hk'.symm, hk⟩

theorem lookup_split {xs ys : List (K × V)} {k : K} (v : V) (hk : k ∉ xs.map Prod.fst) :
    lookup (xs ++ (k, v) :: ys) k = some v := by
  induction xs with
  | nil => simp [lookup_cons]
  | cons e xs ih =>
      rw [List.map_cons, List.mem_cons, not_or] at hk
      rw [List.cons_append, lookup_cons, if_neg (fun he => hk.1 he.symm)]
      exact ih hk.2

/-- Touching a key takes its entry out and puts it in front. -/
theorem touch_split {xs ys : List (K × V)} {k : K} (v : V) (hk : k ∉ xs.map Prod.fst) :
    touch (xs ++ (k, v) :: ys) k = (k, v) :: (xs ++ ys) := by
  have hxs : ∀ e ∈ xs, ¬ decide (e.1 = k) = true := by
    intro e he hek
    exact hk (List.mem_map.mpr ⟨e, he, of_decide_eq_true hek⟩)
  rw [touch, lookup_split v hk]
  show (k, v) :: List.eraseP _ _ = _
  rw [List.eraseP_append_right _ hxs, List.eraseP_cons_of_pos (by simp)]

theorem touch_of_none {l : List (K × V)} {k : K} (h : lookup l k = none) : touch l k = l := by
  rw [touch, h]

theorem touch_perm (l : List (K × V)) (k : K) : (touch l k).Perm l := by
  cases h : lookup l k with
  | none => rw [touch_of_none h]
  | some v =>
      obtain ⟨xs, ys, rfl, hk⟩ := lookup_eq_some_split h
      rw [touch_split v hk]
      exact List.perm_middle.symm

/-- One request in the cache-aside way, and the value of a hit. -/
def request (load : K → Option V) (c : Nat) (l : List (K × V)) (k : K) :
    List (K × V) × Option V :=
  match lookup l k with
  | some v => (touch l k, some v)
  | none =>
    match load k with
    | some v => (insert c l (k, v), none)
    | none => (l, none)

/-- The cache-aside client of a bounded recency list, from the empty list. -/
def client (load : K → Option V) (c : Nat) : Total (List (K × V)) K (Option V) where
  start := []
  next := request load c

/-- Every entry holds what the loader has for its key. -/
def Loaded (load : K → Option V) (l : List (K × V)) : Prop :=
  ∀ e ∈ l, load e.1 = some e.2

variable {load : K → Option V} {c c₁ c₂ : Nat} {l : List (K × V)} {k : K}

theorem request_bounded (hl : l.length ≤ c) : (request load c l k).1.length ≤ c := by
  unfold request
  cases hlk : lookup l k with
  | some v =>
      show (touch l k).length ≤ c
      rw [(touch_perm l k).length_eq]
      exact hl
  | none =>
      cases hload : load k with
      | some v => exact length_insert_le hl (k, v)
      | none => exact hl

theorem request_loaded (hl : l.length ≤ c) (h : Loaded load l) :
    Loaded load (request load c l k).1 := by
  unfold request
  cases hlk : lookup l k with
  | some v => exact fun e he => h e ((touch_perm l k).mem_iff.mp he)
  | none =>
      cases hload : load k with
      | none => exact h
      | some v =>
          intro e he
          have hmem : e ∈ insert c l (k, v) := he
          rw [insert_eq_take hl] at hmem
          rcases List.mem_cons.mp (List.mem_of_mem_take hmem) with rfl | he'
          · exact hload
          · exact h e he'

/-- A hit of the truncated list is a hit of the whole one, with its value. -/
theorem lookup_of_take {v : V} (h : lookup (l.take c) k = some v) : lookup l k = some v := by
  obtain ⟨xs, ys, hsplit, hk⟩ := lookup_eq_some_split h
  rw [← List.take_append_drop c l, hsplit, List.append_assoc, List.cons_append]
  exact lookup_split v hk

omit [DecidableEq K] in
/-- Truncation commutes with an insertion. -/
theorem take_insert (hc : c₁ ≤ c₂) (hl : l.length ≤ c₂) (e : K × V) :
    (insert c₂ l e).take c₁ = insert c₁ (l.take c₁) e := by
  have hshort : (l.take c₁).length ≤ c₁ := by
    rw [List.length_take]
    exact Nat.min_le_left _ _
  rw [insert_eq_take hl, insert_eq_take hshort, List.take_take, Nat.min_eq_left hc]
  cases c₁ with
  | zero => rfl
  | succ n =>
      rw [List.take_succ_cons, List.take_succ_cons, List.take_take, Nat.min_eq_left (by omega)]

/-- Truncation commutes with a touch of an entry that it keeps. -/
theorem take_touch {xs ys : List (K × V)} {v : V} (hk : k ∉ xs.map Prod.fst)
    (hin : xs.length < c) :
    (touch (xs ++ (k, v) :: ys) k).take c = touch ((xs ++ (k, v) :: ys).take c) k := by
  obtain ⟨d, rfl⟩ : ∃ d, c = xs.length + (d + 1) := ⟨c - xs.length - 1, by omega⟩
  have htake : (xs ++ (k, v) :: ys).take (xs.length + (d + 1)) = xs ++ (k, v) :: ys.take d := by
    rw [List.take_length_add_append, List.take_succ_cons]
  rw [htake, touch_split v hk, touch_split v hk, ← Nat.add_assoc, List.take_succ_cons,
    List.take_length_add_append]

/-- A touch of an entry that truncation cuts off is an insertion to what is
left. -/
theorem take_touch_cut {xs ys : List (K × V)} {v : V} (hk : k ∉ xs.map Prod.fst)
    (hout : c ≤ xs.length) :
    (touch (xs ++ (k, v) :: ys) k).take c = insert c (xs.take c) (k, v) := by
  have hshort : (xs.take c).length ≤ c := by
    rw [List.length_take]
    exact Nat.min_le_left _ _
  rw [touch_split v hk, insert_eq_take hshort]
  cases c with
  | zero => rfl
  | succ n =>
      rw [List.take_succ_cons, List.take_succ_cons, List.take_take,
        List.take_append_of_le_length (by omega), Nat.min_eq_left (by omega)]

/-- The inclusion property, one request: truncation commutes with it. -/
theorem request_take (hc : c₁ ≤ c₂) (hl : l.length ≤ c₂) (hload : Loaded load l) :
    (request load c₂ l k).1.take c₁ = (request load c₁ (l.take c₁) k).1 := by
  cases hlk : lookup l k with
  | some v =>
      obtain ⟨xs, ys, rfl, hk⟩ := lookup_eq_some_split hlk
      simp only [request, hlk]
      by_cases hin : xs.length < c₁
      · -- the entry survives the truncation: both lists touch it
        have hhit : lookup ((xs ++ (k, v) :: ys).take c₁) k = some v := by
          obtain ⟨d, rfl⟩ : ∃ d, c₁ = xs.length + (d + 1) := ⟨c₁ - xs.length - 1, by omega⟩
          rw [List.take_length_add_append, List.take_succ_cons]
          exact lookup_split v hk
        rw [hhit]
        exact take_touch hk hin
      · -- the entry is cut off: the shorter list misses and loads it again
        have hv : load k = some v := hload (k, v) (by simp)
        have hout : (xs ++ (k, v) :: ys).take c₁ = xs.take c₁ :=
          List.take_append_of_le_length (by omega)
        have hmiss : lookup (xs.take c₁) k = none := by
          rw [lookup_eq_none_iff]
          intro hmem
          obtain ⟨e, he, rfl⟩ := List.mem_map.mp hmem
          exact hk (List.mem_map_of_mem (List.mem_of_mem_take he))
        rw [hout, hmiss, hv]
        exact take_touch_cut hk (by omega)
  | none =>
      have hmiss : lookup (l.take c₁) k = none := by
        cases h : lookup (l.take c₁) k with
        | none => rfl
        | some v => rw [lookup_of_take h] at hlk; cases hlk
      simp only [request, hlk, hmiss]
      cases hv : load k with
      | none => rfl
      | some v => exact take_insert hc hl (k, v)

/-- The inclusion property over runs: at every point the list of the smaller
capacity is the truncation of the other, and its hits are hits of the other. -/
theorem run_request_take (hc : c₁ ≤ c₂) :
    ∀ (ks : List K) (l : List (K × V)), l.length ≤ c₂ → Loaded load l →
      ((client load c₁).run (l.take c₁) ks).1 = ((client load c₂).run l ks).1.take c₁ ∧
      List.Forall₂ (fun o₁ o₂ => ∀ v, o₁ = some v → o₂ = some v)
        ((client load c₁).run (l.take c₁) ks).2 ((client load c₂).run l ks).2 := by
  intro ks
  induction ks with
  | nil => intro l _ _; exact ⟨rfl, .nil⟩
  | cons k ks ih =>
      intro l hl hload
      have hstep := request_take (k := k) hc hl hload
      obtain ⟨hlist, houts⟩ := ih (request load c₂ l k).1 (request_bounded hl)
        (request_loaded hl hload)
      rw [hstep] at hlist houts
      refine ⟨hlist, .cons ?_ houts⟩
      intro v hv
      show (request load c₂ l k).2 = some v
      have hhit : lookup (l.take c₁) k = some v := by
        cases h : lookup (l.take c₁) k with
        | some w => simpa [client, request, h] using hv
        | none => cases hk : load k <;> simp [client, request, h, hk] at hv
      simp [request, lookup_of_take hhit]

end Keel.Recency
