import LearnSpace.Cache.Methods
import LearnSpace.Cache.Overwrite

/-!
# The two overloads of `put`

`put(Key&&, Value&&)` moves the key into the node it makes and then files the node under
what the move left. So it does what `put(const Key&, const Value&)` does only where the
move leaves the key as it was, or where no node is made.
-/

namespace LearnSpace.Cache

open Keel Function

section PutMove

variable {K V : Type} [DecidableEq K] [Inhabited K] [Inhabited V]
  {σ τ : LRUContainers K V} {k : K} {v : V} {residual : K}

omit [DecidableEq K] [Inhabited K] [Inhabited V] in
/-- What is found under a key; nothing under a key whose pointer is null or dangling. -/
def valueOf (σ : LRUContainers K V) (k : K) : Option (Option V) :=
  (σ.nodeMap k).map fun p => (entryOf σ.heap p).map Prod.snd

/-- The same content: the resident keys, their values, the recency order and the size. -/
structure SameContent (σ τ : LRUContainers K V) : Prop where
  resident : ∀ k, σ.Resident k ↔ τ.Resident k
  values : ∀ k, valueOf σ k = valueOf τ k
  order : ∀ l, Walks σ l ↔ Walks τ l
  size : σ.size = τ.size

/-- A node that holds the pair is filed under its key. -/
def Filed (σ : LRUContainers K V) (k : K) (v : V) : Prop :=
  ∃ p, σ.nodeMap k = some p ∧ entryOf σ.heap p = some (k, v)

/-- The two overloads agree on `k` and `v`, for a move that leaves `residual`: both have
no outcome, or outcomes of the same content; and a node that the second one makes is filed
under the key stored in it. -/
def PutsAgree (σ : LRUContainers K V) (k : K) (v : V) (residual : K) : Prop :=
  Option.Rel (fun τ τ' => SameContent τ τ' ∧ (¬ σ.Resident k → Filed τ' k v))
    (σ.put k v) (σ.putMove k v residual)

omit [DecidableEq K] [Inhabited K] [Inhabited V] in
theorem SameContent.refl (σ : LRUContainers K V) : SameContent σ σ where
  resident _ := Iff.rfl
  values _ := rfl
  order _ := Iff.rfl
  size := rfl

/-- Where a node is made, the overloads agree exactly if the move leaves the key. -/
theorem InRing.putsAgree_miss {as : List Ptr} (i : InRing σ as) (hk : σ.nodeMap k = none) :
    PutsAgree σ k v residual ↔ residual = k := by
  obtain ⟨heap, p, hput, hmove, -, -, hentry⟩ := i.put_miss hk v
  rw [PutsAgree, hput, hmove residual]
  constructor
  · intro hagree
    cases hagree with
    | some h =>
        obtain ⟨q, hq, -⟩ := h.2 (fun hres => hres hk)
        by_contra hne
        have hfiled : update σ.nodeMap residual (some p) k = some q := hq
        rw [update_of_ne (Ne.symm hne), hk] at hfiled
        cases hfiled
  · rintro rfl
    refine .some ⟨.refl _, fun _ => ⟨p, ?_, hentry⟩⟩
    exact update_self _ _ _

omit [Inhabited K] [Inhabited V] in
/-- Where none is made, they do the same. -/
theorem putsAgree_hit {p : Ptr} (hk : σ.nodeMap k = some p) : PutsAgree σ k v residual := by
  have hres : σ.Resident k := by
    rw [LRUContainers.Resident, hk]
    exact Option.some_ne_none p
  rw [PutsAgree, InRing.putMove_hit hk]
  cases σ.put k v with
  | none => exact .none
  | some τ => exact .some ⟨.refl τ, fun hnot => absurd hres hnot⟩

/-- **The two overloads of `put` agree exactly if no node is filed under a moved-from
key**: the move leaves the key as it was, or the key is resident, or nothing can be put at
all. -/
theorem putsAgree_iff (hσ : MethodsReachable σ) (k : K) (v : V) (residual : K) :
    PutsAgree σ k v residual ↔ residual = k ∨ σ.Resident k ∨ ¬ Linked σ := by
  rcases methods_settled hσ with ⟨as, i⟩ | s
  · cases hk : σ.nodeMap k with
    | none =>
        rw [i.putsAgree_miss hk]
        constructor
        · exact Or.inl
        · rintro (heq | hres | hnot)
          · exact heq
          · exact absurd hk hres
          · exact absurd i.linked hnot
    | some p =>
        have hres : σ.Resident k := by
          rw [LRUContainers.Resident, hk]
          exact Option.some_ne_none p
        exact iff_of_true (putsAgree_hit hk) (.inr (.inl hres))
  · apply iff_of_true
    · rw [PutsAgree, s.put_none, s.putMove_none]
      exact .none
    · exact .inr (.inr s.not_linked)

end PutMove

/-- On a fresh container of strings, for a move that leaves the string empty. -/
theorem putsAgree_iff_string :
    PutsAgree (LRUContainers.construct : LRUContainers String Nat) "a" 1 "" ↔
      "" = "a" ∨ (LRUContainers.construct : LRUContainers String Nat).Resident "a" ∨
        ¬ Linked (LRUContainers.construct : LRUContainers String Nat) :=
  putsAgree_iff (.init rfl) "a" 1 ""

/-- After `put("a", 1)` of a string that is moved from, "a" is not found. -/
theorem putMove_loses_key :
    MethodsReachable (LRUContainers.construct : LRUContainers String Nat) ∧
      ¬ PutsAgree (LRUContainers.construct : LRUContainers String Nat) "a" 1 "" := by
  refine ⟨.init rfl, ?_⟩
  intro hagree
  rw [InRing.putsAgree_miss construct_inRing rfl] at hagree
  exact absurd hagree (by decide)

end LearnSpace.Cache
