import Mathlib.Data.List.Nodup

/-!
# What is due and what is under way

Things are due, and each of them is to be under way once. `Tidy` says that nothing is under
way twice or without being due, `Covers` that nothing that is due has been left out. A turn
ends one thing that is under way, changes what is due and starts others, as many of them as
there is room for. It keeps all tidy; and whatever has once been left out, stays out.
-/

namespace Keel

variable {α : Type*} {due due' : α → Prop} {t : α} {ts ts' rest wanted : List α} {room : Nat}

/-- Nothing is under way twice, and what is under way is due. -/
structure Tidy (due : α → Prop) (ts : List α) : Prop where
  nodup : ts.Nodup
  due : ∀ t ∈ ts, due t

/-- What is due is under way. -/
def Covers (due : α → Prop) (ts : List α) : Prop := ∀ t, due t → t ∈ ts

theorem Tidy.perm (h : Tidy due ts) (hperm : ts.Perm ts') : Tidy due ts' :=
  ⟨hperm.nodup_iff.mp h.nodup, fun t ht => h.due t (hperm.mem_iff.mpr ht)⟩

theorem covers_perm (hperm : ts.Perm ts') : Covers due ts ↔ Covers due ts' :=
  forall_congr' fun _ => imp_congr_right fun _ => hperm.mem_iff

/-- What is due is under way exactly once. -/
theorem Tidy.count_eq_one [DecidableEq α] (h : Tidy due ts) (hcovers : Covers due ts)
    (ht : due t) : ts.count t = 1 :=
  List.count_eq_one_of_mem h.nodup (hcovers t ht)

/-- `t` ends, and `wanted` are to start: they are due from now on, and none of them is under
way. All else that was due is still due. -/
structure Turn (due due' : α → Prop) (t : α) (wanted : List α) : Prop where
  nodup : wanted.Nodup
  asked : ∀ s ∈ wanted, due' s
  fresh : ∀ s ∈ wanted, s = t ∨ ¬ due s
  kept : ∀ s, due s → s ≠ t → due' s

namespace Turn

theorem not_mem_rest (e : Turn due due' t wanted) (h : Tidy due (t :: rest)) {s : α}
    (hs : s ∈ wanted) : s ∉ rest := by
  intro hrest
  rcases e.fresh s hs with rfl | hnot
  · exact (List.nodup_cons.mp h.nodup).1 hrest
  · exact hnot (h.due s (List.mem_cons_of_mem t hrest))

theorem tidy (e : Turn due due' t wanted) (h : Tidy due (t :: rest)) (room : Nat) :
    Tidy due' (rest ++ wanted.take room) := by
  obtain ⟨ht, hnodup⟩ := List.nodup_cons.mp h.nodup
  constructor
  · apply List.nodup_append'.mpr
    refine ⟨hnodup, e.nodup.sublist (List.take_sublist room wanted), ?_⟩
    intro s hrest hs
    exact e.not_mem_rest h (List.mem_of_mem_take hs) hrest
  · intro s hs
    rcases List.mem_append.mp hs with hrest | hs
    · apply e.kept s (h.due s (List.mem_cons_of_mem t hrest))
      rintro rfl
      exact ht hrest
    · exact e.asked s (List.mem_of_mem_take hs)

/-- Nothing is left out behind a turn exactly if nothing was before it, there is room for
all that is to start, and nothing else has become due or has stayed so. -/
theorem covers_iff (e : Turn due due' t wanted) (h : Tidy due (t :: rest)) :
    Covers due' (rest ++ wanted.take room) ↔
      Covers due (t :: rest) ∧ wanted.length ≤ room ∧
        ∀ s, due' s → s ∈ wanted ∨ (due s ∧ s ≠ t) := by
  obtain ⟨ht, -⟩ := List.nodup_cons.mp h.nodup
  constructor
  · intro hcovers
    refine ⟨?_, ?_, ?_⟩
    · intro s hs
      -- a thing that was left out is not `t`, and stays due without being started
      by_cases hst : s = t
      · rw [hst]
        exact List.mem_cons_self
      · rcases List.mem_append.mp (hcovers s (e.kept s hs hst)) with hrest | hwanted
        · exact List.mem_cons_of_mem t hrest
        · rcases e.fresh s (List.mem_of_mem_take hwanted) with heq | hnot
          · exact absurd heq hst
          · exact absurd hs hnot
    · -- the first one without room is left out
      by_contra hlong
      have hroom : room < wanted.length := Nat.lt_of_not_le hlong
      have hmem : wanted[room] ∈ wanted := List.getElem_mem hroom
      rcases List.mem_append.mp (hcovers _ (e.asked _ hmem)) with hrest | htake
      · exact e.not_mem_rest h hmem hrest
      · obtain ⟨i, hi, heq⟩ := List.getElem_of_mem htake
        rw [List.getElem_take] at heq
        rw [List.length_take] at hi
        have hsame := (e.nodup.getElem_inj_iff).mp heq
        omega
    · intro s hs
      rcases List.mem_append.mp (hcovers s hs) with hrest | hwanted
      · right
        refine ⟨h.due s (List.mem_cons_of_mem t hrest), ?_⟩
        rintro rfl
        exact ht hrest
      · exact .inl (List.mem_of_mem_take hwanted)
  · rintro ⟨hcovers, hroom, hrest⟩ s hs
    rw [List.take_of_length_le hroom]
    rcases hrest s hs with hwanted | ⟨hdue, hne⟩
    · exact List.mem_append_right rest hwanted
    · exact List.mem_append_left wanted ((List.mem_cons.mp (hcovers s hdue)).resolve_left hne)

end Turn
end Keel
