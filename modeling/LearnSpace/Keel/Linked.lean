import Mathlib.Data.List.Nodup
import Mathlib.Logic.Function.Basic

/-!
# Linked chains

A link field of a heap of nodes is a partial function on addresses. `Seg f a
xs b` says that following `f` from `a` visits `xs` and then arrives at `b`.
A change of one link is a `Function.update`, so the effect of pointer surgery
on a chain is a statement about updates: `Seg.unlink` takes one node out,
`Seg.link` puts one in, and `Seg.congr` is the frame.

A doubly linked chain between two ends is a pair of such chains (`Chain`), one
for each field, each the reverse of the other; a ring around a sentry (`Ring`) is
one whose ends are the same.
-/

namespace Keel

variable {ι : Type*}

/-- Following `f` from `a` visits `xs` in order and then arrives at `b`. -/
def Seg (f : ι → Option ι) : ι → List ι → ι → Prop
  | a, [], b => f a = some b
  | a, x :: xs, b => f a = some x ∧ Seg f x xs b

namespace Seg

variable {f g : ι → Option ι} {a b c x : ι} {xs ys : List ι}

@[simp] theorem nil_iff : Seg f a [] b ↔ f a = some b := Iff.rfl

@[simp] theorem cons_iff : Seg f a (x :: xs) b ↔ f a = some x ∧ Seg f x xs b := Iff.rfl

/-- A chain through `x` is a chain to `x` and a chain from `x`. -/
theorem append_cons_iff :
    ∀ {a : ι} {xs : List ι}, Seg f a (xs ++ x :: ys) b ↔ Seg f a xs x ∧ Seg f x ys b
  | _, [] => Iff.rfl
  | a, y :: xs => by
      rw [List.cons_append, cons_iff, cons_iff, append_cons_iff, and_assoc]

/-- The first link. -/
theorem first (h : Seg f a xs b) : f a = some (xs.headD b) := by
  cases xs with
  | nil => exact h
  | cons x xs => exact h.1

/-- The last link. -/
theorem last : ∀ {a : ι} {xs : List ι}, Seg f a xs b → f (xs.getLastD a) = some b
  | _, [], h => h
  | _, _ :: _, h => by
      rw [List.getLastD_cons]
      exact last h.2

/-- A chain that ends where there is no link has one list of nodes. -/
theorem unique (hb : f b = none) :
    ∀ {a : ι} {xs ys : List ι}, Seg f a xs b → Seg f a ys b → xs = ys
  | _, [], [], _, _ => rfl
  | a, [], y :: ys, h, h' => by
      have hy : b = y := Option.some.inj (h.symm.trans h'.1)
      have := h'.2.first
      rw [← hy, hb] at this
      cases this
  | a, x :: xs, [], h, h' => by
      have hx : b = x := Option.some.inj (h'.symm.trans h.1)
      have := h.2.first
      rw [← hx, hb] at this
      cases this
  | a, x :: xs, y :: ys, h, h' => by
      obtain rfl : x = y := Option.some.inj (h.1.symm.trans h'.1)
      rw [unique hb h.2 h'.2]

/-- The first part of a chain. -/
theorem init (h : Seg f a (xs ++ ys) b) : Seg f a xs (ys.headD b) := by
  cases ys with
  | nil => rwa [List.append_nil] at h
  | cons y ys => exact (append_cons_iff.mp h).1

/-- The frame: a chain depends only on the links of its own nodes. -/
theorem congr : ∀ {a : ι} {xs : List ι},
    (∀ y ∈ a :: xs, g y = f y) → Seg f a xs b → Seg g a xs b
  | a, [], hfg, h => by
      rw [nil_iff, hfg a List.mem_cons_self]
      exact h
  | a, x :: xs, hfg, h => by
      rw [cons_iff, hfg a List.mem_cons_self]
      exact ⟨h.1, congr (fun y hy => hfg y (List.mem_cons_of_mem _ hy)) h.2⟩

variable [DecidableEq ι]

/-- A link outside the chain can be set to anything. -/
theorem update_frame {v : Option ι} (hx : x ∉ a :: xs) (h : Seg f a xs b) :
    Seg (Function.update f x v) a xs b := by
  refine congr ?_ h
  intro y hy
  exact Function.update_of_ne (fun he : y = x => hx (he ▸ hy)) _ _

/-- Setting the last link redirects the chain. -/
theorem redirect : ∀ {a : ι} {xs : List ι}, (a :: xs).Nodup → Seg f a xs b →
    Seg (Function.update f (xs.getLastD a) (some c)) a xs c
  | a, [], _, _ => Function.update_self a _ f
  | a, x :: xs, hnd, h => by
      obtain ⟨ha, hnd'⟩ := List.nodup_cons.mp hnd
      rw [List.getLastD_cons]
      refine ⟨?_, redirect hnd' h.2⟩
      have hmem : xs.getLastD x ∈ x :: xs := List.getLastD_mem_cons
      rw [Function.update_of_ne (fun he : a = xs.getLastD x => ha (he ▸ hmem)), h.1]

/-- Taking `x` out of a chain: its predecessor gets its link. -/
theorem unlink (hnd : (a :: (xs ++ x :: ys)).Nodup) (h : Seg f a (xs ++ x :: ys) b) :
    Seg (Function.update f (xs.getLastD a) (f x)) a (xs ++ ys) b := by
  obtain ⟨hl, hr⟩ := append_cons_iff.mp h
  have hlast : xs.getLastD a ∈ a :: xs := List.getLastD_mem_cons
  rw [← List.cons_append] at hnd
  have hndl : (a :: xs).Nodup := hnd.of_append_left
  have hout : xs.getLastD a ∉ x :: ys := (List.disjoint_of_nodup_append hnd) hlast
  cases ys with
  | nil =>
      rw [List.append_nil, hr.first]
      exact hl.redirect hndl
  | cons y ys =>
      rw [hr.1]
      refine append_cons_iff.mpr ⟨hl.redirect hndl, ?_⟩
      exact hr.2.update_frame (fun hy => hout (List.mem_cons_of_mem _ hy))

/-- Putting a fresh `n` into a chain: it takes its predecessor's link. -/
theorem link {n : ι} (hnd : (a :: (xs ++ ys)).Nodup) (hn : n ∉ a :: (xs ++ ys))
    (h : Seg f a (xs ++ ys) b) :
    Seg (Function.update (Function.update f n (f (xs.getLastD a))) (xs.getLastD a) (some n))
      a (xs ++ n :: ys) b := by
  have hlast : xs.getLastD a ∈ a :: xs := List.getLastD_mem_cons
  rw [← List.cons_append] at hnd hn
  have hne : n ≠ xs.getLastD a := fun he => hn (he ▸ List.mem_append_left _ hlast)
  have hndl : (a :: xs).Nodup := hnd.of_append_left
  have hout : xs.getLastD a ∉ ys := (List.disjoint_of_nodup_append hnd) hlast
  have hl : n ∉ a :: xs := fun he => hn (List.mem_append_left _ he)
  have hr : n ∉ ys := fun he => hn (List.mem_append_right _ he)
  cases ys with
  | nil =>
      rw [List.append_nil] at h
      refine append_cons_iff.mpr ⟨(h.update_frame hl).redirect hndl, ?_⟩
      rw [nil_iff, Function.update_of_ne hne, Function.update_self, h.last]
  | cons y ys =>
      obtain ⟨hxs, hys⟩ := append_cons_iff.mp h
      refine append_cons_iff.mpr ⟨(hxs.update_frame hl).redirect hndl, ?_, ?_⟩
      · rw [Function.update_of_ne hne, Function.update_self, hxs.last]
      · exact (hys.update_frame hr).update_frame hout

end Seg

/-- A doubly linked chain from `s` to `e`: the links `next` from `s` visit `as`
and arrive at `e`, and the links `prev` from `e` visit `as` backwards and arrive at
`s`. -/
structure Chain (next prev : ι → Option ι) (s e : ι) (as : List ι) : Prop where
  nodup : (s :: as).Nodup
  notEnd : e ∉ as
  forward : Seg next s as e
  backward : Seg prev e as.reverse s

namespace Chain

variable {next prev : ι → Option ι} {s e n a : ι} {as xs ys : List ι}

theorem getLastD_reverse (e : ι) (as : List ι) : as.reverse.getLastD e = as.headD e := by
  rw [List.getLastD_eq_getLast?, List.getLast?_reverse, List.headD_eq_head?_getD]

theorem headD_reverse (s : ι) (as : List ι) : as.reverse.headD s = as.getLastD s := by
  rw [List.headD_eq_head?_getD, List.head?_reverse, ← List.getLastD_eq_getLast?]

theorem getLastD_append_cons (d : ι) (xs ys : List ι) (a : ι) :
    (xs ++ a :: ys).getLastD d = ys.getLastD a := by
  induction xs generalizing d with
  | nil => rw [List.nil_append, List.getLastD_cons]
  | cons x xs ih => rw [List.cons_append, List.getLastD_cons, ih]

theorem reverse_append_cons (xs ys : List ι) (a : ι) :
    (xs ++ a :: ys).reverse = ys.reverse ++ a :: xs.reverse := by simp

/-- The first link forwards. -/
theorem first (h : Chain next prev s e as) : next s = some (as.headD e) :=
  h.forward.first

/-- The first link backwards. -/
theorem last (h : Chain next prev s e as) : prev e = some (as.getLastD s) := by
  rw [h.backward.first, headD_reverse]

/-- The successor of a node. -/
theorem next_of_mem (h : Chain next prev s e (xs ++ a :: ys)) :
    next a = some (ys.headD e) :=
  (Seg.append_cons_iff.mp h.forward).2.first

/-- The predecessor of a node. -/
theorem prev_of_mem (h : Chain next prev s e (xs ++ a :: ys)) :
    prev a = some (xs.getLastD s) := by
  have hb := h.backward
  rw [reverse_append_cons] at hb
  rw [(Seg.append_cons_iff.mp hb).2.first, headD_reverse]

/-- What precedes the rest of a chain is on the chain. -/
theorem pred_mem (s : ι) (xs ys : List ι) : xs.getLastD s ∈ s :: (xs ++ ys) := by
  rw [← List.cons_append]
  exact List.mem_append_left _ List.getLastD_mem_cons

/-- What follows the beginning of a chain is on the chain, or its end. -/
theorem succ_mem (e : ι) (xs ys : List ι) : ys.headD e ∈ e :: (xs ++ ys) := by
  cases ys <;> simp

theorem nodup_nodes (h : Chain next prev s e as) : as.Nodup :=
  (List.nodup_cons.mp h.nodup).2

theorem reverse_nodup (h : Chain next prev s e as) : (e :: as.reverse).Nodup :=
  List.nodup_cons.mpr
    ⟨fun hm => h.notEnd (List.mem_reverse.mp hm), List.nodup_reverse.mpr h.nodup_nodes⟩

/-- The frame: a chain depends only on the links of its own nodes. -/
theorem congr {next' prev' : ι → Option ι} (hn : ∀ y ∈ s :: as, next' y = next y)
    (hp : ∀ y ∈ e :: as, prev' y = prev y) (h : Chain next prev s e as) :
    Chain next' prev' s e as := by
  refine ⟨h.nodup, h.notEnd, h.forward.congr hn, h.backward.congr ?_⟩
  intro y hy
  exact hp y (by simpa using hy)

/-- A node of the chain is neither its beginning nor met twice. -/
theorem not_mem_rest (h : Chain next prev s e (xs ++ a :: ys)) : a ∉ s :: (xs ++ ys) := by
  obtain ⟨hs, hnd⟩ := List.nodup_cons.mp h.nodup
  intro hmem
  rcases List.mem_cons.mp hmem with rfl | hmem
  · exact hs (List.mem_append_right _ List.mem_cons_self)
  · exact (List.nodup_cons.mp (List.nodup_middle.mp hnd)).1 hmem

/-- The predecessor is the beginning only for the first node. -/
theorem first_of_pred (h : Chain next prev s e (xs ++ ys)) (he : xs.getLastD s = s) :
    xs = [] := by
  cases xs with
  | nil => rfl
  | cons x xs =>
      rw [List.getLastD_cons] at he
      have hmem : xs.getLastD x ∈ x :: xs := List.getLastD_mem_cons
      rw [he] at hmem
      exact absurd (List.mem_append_left _ hmem) (List.nodup_cons.mp h.nodup).1

variable [DecidableEq ι]

/-- Taking `a` out: its predecessor and its successor are joined. -/
theorem unlink (h : Chain next prev s e (xs ++ a :: ys)) :
    Chain (Function.update next (xs.getLastD s) (next a))
      (Function.update prev (ys.headD e) (prev a)) s e (xs ++ ys) := by
  have hb := h.backward
  have hnd := h.reverse_nodup
  rw [reverse_append_cons] at hb hnd
  have hback := hb.unlink hnd
  rw [getLastD_reverse, ← List.reverse_append] at hback
  refine ⟨h.nodup.sublist ?_, ?_, h.forward.unlink h.nodup, hback⟩
  · exact (List.Sublist.append (List.Sublist.refl xs) (List.sublist_cons_self a ys)).cons_cons s
  · intro hmem
    exact h.notEnd (List.Sublist.mem hmem ((List.Sublist.refl xs).append
      (List.sublist_cons_self a ys)))

/-- Putting a fresh `n` in between two neighbours. -/
theorem link (h : Chain next prev s e (xs ++ ys)) (hn : n ∉ s :: (xs ++ ys)) (hne : n ≠ e) :
    Chain (Function.update (Function.update next n (next (xs.getLastD s)))
        (xs.getLastD s) (some n))
      (Function.update (Function.update prev n (prev (ys.headD e))) (ys.headD e) (some n))
      s e (xs ++ n :: ys) := by
  obtain ⟨hns, hnas⟩ : n ≠ s ∧ n ∉ xs ++ ys := by simpa using hn
  obtain ⟨hs, hnd⟩ := List.nodup_cons.mp h.nodup
  have hb := h.backward
  have hndr := h.reverse_nodup
  rw [List.reverse_append] at hb hndr
  have hnr : n ∉ e :: (ys.reverse ++ xs.reverse) := by
    rw [← List.reverse_append, List.mem_cons, List.mem_reverse]
    exact fun hmem => hmem.elim hne hnas
  have hback := hb.link hndr hnr
  rw [getLastD_reverse, ← reverse_append_cons] at hback
  refine ⟨?_, ?_, h.forward.link h.nodup hn, hback⟩
  · refine List.nodup_cons.mpr ⟨?_, List.nodup_middle.mpr (List.nodup_cons.mpr ⟨hnas, hnd⟩)⟩
    intro hmem
    rcases List.mem_cons.mp (List.perm_middle.mem_iff.mp hmem) with he | hmem
    · exact hns he.symm
    · exact hs hmem
  · intro hmem
    rcases List.mem_cons.mp (List.perm_middle.mem_iff.mp hmem) with he | hmem
    · exact hne he.symm
    · exact h.notEnd hmem

/-- Ending the chain after its first part. -/
theorem cut (h : Chain next prev s e (xs ++ ys)) :
    Chain (Function.update next (xs.getLastD s) (some e))
      (Function.update prev e (some (xs.getLastD s))) s e xs := by
  have hnd : (s :: xs).Nodup := h.nodup.sublist ((List.sublist_append_left xs ys).cons_cons s)
  have he : e ∉ xs := fun hmem => h.notEnd (List.mem_append_left _ hmem)
  refine ⟨hnd, he, h.forward.init.redirect hnd, ?_⟩
  cases List.eq_nil_or_concat' xs with
  | inl hxs =>
      subst hxs
      exact Function.update_self ..
  | inr hxs =>
      obtain ⟨zs, x, rfl⟩ := hxs
      have hb := h.backward
      rw [List.append_assoc, List.singleton_append, reverse_append_cons] at hb
      rw [List.getLastD_concat, List.reverse_concat]
      refine ⟨Function.update_self .., (Seg.append_cons_iff.mp hb).2.update_frame ?_⟩
      rwa [← List.reverse_concat, List.mem_reverse]

end Chain

/-- A doubly linked ring: from the sentry `s`, the links `next` visit `as` and
return, and the links `prev` visit `as` backwards and return. -/
structure Ring (next prev : ι → Option ι) (s : ι) (as : List ι) : Prop where
  nodup : (s :: as).Nodup
  forward : Seg next s as s
  backward : Seg prev s as.reverse s

namespace Ring

variable {next prev : ι → Option ι} {s n a : ι} {as xs ys : List ι}

/-- A ring is a chain that ends where it begins. -/
theorem iff_chain : Ring next prev s as ↔ Chain next prev s s as :=
  ⟨fun h => ⟨h.nodup, (List.nodup_cons.mp h.nodup).1, h.forward, h.backward⟩,
    fun h => ⟨h.nodup, h.forward, h.backward⟩⟩

theorem next_sentry (h : Ring next prev s as) : next s = some (as.headD s) :=
  h.forward.first

theorem prev_sentry (h : Ring next prev s as) : prev s = some (as.getLastD s) :=
  (iff_chain.mp h).last

/-- The successor of a node. -/
theorem next_of_mem (h : Ring next prev s (xs ++ a :: ys)) : next a = some (ys.headD s) :=
  (iff_chain.mp h).next_of_mem

/-- The predecessor of a node. -/
theorem prev_of_mem (h : Ring next prev s (xs ++ a :: ys)) :
    prev a = some (xs.getLastD s) :=
  (iff_chain.mp h).prev_of_mem

/-- The frame: a ring depends only on the links of its own nodes. -/
theorem congr {next' prev' : ι → Option ι} (hn : ∀ y ∈ s :: as, next' y = next y)
    (hp : ∀ y ∈ s :: as, prev' y = prev y) (h : Ring next prev s as) :
    Ring next' prev' s as :=
  iff_chain.mpr ((iff_chain.mp h).congr hn hp)

/-- What follows a node links back to it. -/
theorem prev_of_succ (h : Ring next prev s (xs ++ a :: ys)) : prev (ys.headD s) = some a := by
  cases ys with
  | nil =>
      rw [List.headD_nil, h.prev_sentry]
      simp
  | cons b ys =>
      rw [List.append_cons] at h
      rw [List.headD_cons, h.prev_of_mem]
      simp

/-- A node of the ring is neither the sentry nor met twice. -/
theorem not_mem_rest (h : Ring next prev s (xs ++ a :: ys)) : a ∉ s :: (xs ++ ys) :=
  (iff_chain.mp h).not_mem_rest

/-- The predecessor is the sentry only for the first node. -/
theorem first_of_pred_sentry (h : Ring next prev s (xs ++ ys)) (he : xs.getLastD s = s) :
    xs = [] :=
  (iff_chain.mp h).first_of_pred he

variable [DecidableEq ι]

/-- Taking `a` out: its predecessor and its successor are joined. -/
theorem unlink (h : Ring next prev s (xs ++ a :: ys)) :
    Ring (Function.update next (xs.getLastD s) (next a))
      (Function.update prev (ys.headD s) (prev a)) s (xs ++ ys) :=
  iff_chain.mpr (iff_chain.mp h).unlink

/-- Putting a fresh `n` in right after the sentry. -/
theorem linkHead (h : Ring next prev s as) (hn : n ∉ s :: as) :
    Ring (Function.update (Function.update next n (next s)) s (some n))
      (Function.update (Function.update prev n (some s)) (as.headD s) (some n))
      s (n :: as) := by
  have hns : n ≠ s := fun he => hn (he ▸ List.mem_cons_self)
  have hpred : prev (as.headD s) = some s := by
    cases as with
    | nil => exact h.backward
    | cons a as => exact prev_of_mem (show Ring next prev s ([] ++ a :: as) from h)
  have hchain : Chain next prev s s ([] ++ as) := iff_chain.mp h
  have hlink := hchain.link hn hns
  rw [hpred] at hlink
  exact iff_chain.mpr hlink

end Ring
end Keel
