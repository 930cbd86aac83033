import Mathlib.Data.List.GetD
import Mathlib.Data.Set.Insert
import LearnSpace.Keel.TSys

/-!
# Repeating until acknowledged

One direction of a connection over a network that loses, repeats and reorders what it is given.
The sender numbers its items and keeps each number until it is settled; the receiver stores what
comes in any order, and hands the items up in the order of their numbers.

The network is the set of everything that was ever put into it, so to deliver something is to
pick an element of it, whenever and as often as one likes. The steps of the sender (`Send`) and
those of the receiver (`Receive`) touch disjoint parts of the state. Whichever of them are taken,
what was handed up is the beginning of what was sent (`Sound.out`), and what is not kept any more
has been received (`Sound.kept`).
-/

namespace Keel

universe u

/-- The sender, the receiver, and the network between them. -/
structure Arq (α : Type u) where
  /-- the items that have a number, which is their position -/
  sent : List α := []
  /-- the numbers that are not settled -/
  kept : Set Nat := ∅
  /-- the items that were handed up -/
  out : List α := []
  /-- the items that came before it was their turn -/
  early : Set (Nat × α) := ∅
  /-- in the network: items with their numbers -/
  items : Set (Nat × α) := ∅
  /-- in the network: the numbers that were acknowledged one by one -/
  acks : Set Nat := ∅
  /-- in the network: the numbers below which everything was acknowledged -/
  unas : Set Nat := ∅

namespace Arq

variable {α : Type u} {s t r : Arq α} {n u : Nat} {x : α}

/-- The receiver has the item with the number `n`. -/
def Received (s : Arq α) (n : Nat) : Prop := n < s.out.length ∨ ∃ x, (n, x) ∈ s.early

/-- The steps of the sender. -/
inductive Send : Arq α → Arq α → Prop
  | number (s : Arq α) (x : α) :
      Send s { s with sent := s.sent ++ [x], kept := insert s.sent.length s.kept }
  | transmit {s : Arq α} {n : Nat} {x : α} : n ∈ s.kept → s.sent[n]? = some x →
      Send s { s with items := insert (n, x) s.items }
  | settle {s : Arq α} {n : Nat} : n ∈ s.acks → Send s { s with kept := s.kept \ {n} }
  | settleBelow {s : Arq α} {u : Nat} : u ∈ s.unas →
      Send s { s with kept := {n ∈ s.kept | u ≤ n} }

/-- The steps of the receiver. -/
inductive Receive : Arq α → Arq α → Prop
  | store {s : Arq α} {n : Nat} {x : α} : (n, x) ∈ s.items → s.out.length ≤ n →
      Receive s { s with early := insert (n, x) s.early }
  | handUp {s : Arq α} {x : α} : (s.out.length, x) ∈ s.early →
      Receive s { s with out := s.out ++ [x], early := s.early \ {(s.out.length, x)} }
  | acknowledge {s : Arq α} {n : Nat} : s.Received n → Receive s { s with acks := insert n s.acks }
  | report (s : Arq α) : Receive s { s with unas := insert s.out.length s.unas }

/-- Any number of steps of the sender. -/
abbrev Sends : Arq α → Arq α → Prop := Relation.ReflTransGen Send

/-- Any number of steps of the receiver. -/
abbrev Receives : Arq α → Arq α → Prop := Relation.ReflTransGen Receive

/-! ## What the steps leave alone -/

/-- The part of the receiver is the same. -/
structure SendFrame (s t : Arq α) : Prop where
  out : t.out = s.out
  early : t.early = s.early
  acks : t.acks = s.acks
  unas : t.unas = s.unas
  items : s.items ⊆ t.items
  sent : s.sent <+: t.sent

/-- The part of the sender is the same, and what has been received stays so. -/
structure ReceiveFrame (s t : Arq α) : Prop where
  sent : t.sent = s.sent
  kept : t.kept = s.kept
  items : t.items = s.items
  acks : s.acks ⊆ t.acks
  unas : s.unas ⊆ t.unas
  out : s.out <+: t.out
  received : ∀ n, s.Received n → t.Received n

theorem Send.frame (h : Send s t) : SendFrame s t := by
  cases h with
  | number x => exact ⟨rfl, rfl, rfl, rfl, subset_rfl, List.prefix_append _ _⟩
  | transmit _ _ =>
      exact ⟨rfl, rfl, rfl, rfl, Set.subset_insert _ _, List.prefix_rfl⟩
  | settle _ => exact ⟨rfl, rfl, rfl, rfl, subset_rfl, List.prefix_rfl⟩
  | settleBelow _ => exact ⟨rfl, rfl, rfl, rfl, subset_rfl, List.prefix_rfl⟩

theorem SendFrame.trans (h : SendFrame s t) (h' : SendFrame t r) : SendFrame s r :=
  ⟨h'.out.trans h.out, h'.early.trans h.early, h'.acks.trans h.acks, h'.unas.trans h.unas,
    h.items.trans h'.items, h.sent.trans h'.sent⟩

theorem Sends.frame (h : Sends s t) : SendFrame s t := by
  induction h with
  | refl => exact ⟨rfl, rfl, rfl, rfl, subset_rfl, List.prefix_rfl⟩
  | tail _ hstep ih => exact ih.trans hstep.frame

theorem Receive.frame (h : Receive s t) : ReceiveFrame s t := by
  cases h with
  | store _ _ =>
      refine ⟨rfl, rfl, rfl, subset_rfl, subset_rfl, List.prefix_rfl, ?_⟩
      rintro n (hn | ⟨x, hx⟩)
      · exact .inl hn
      · exact .inr ⟨x, Set.mem_insert_of_mem _ hx⟩
  | handUp hnext =>
      refine ⟨rfl, rfl, rfl, subset_rfl, subset_rfl, List.prefix_append _ _, ?_⟩
      rintro n (hn | ⟨y, hy⟩)
      · exact .inl (by rw [List.length_append]; omega)
      · by_cases hsame : n = s.out.length
        · exact .inl (by rw [hsame, List.length_append]; exact Nat.lt_succ_self _)
        · exact .inr ⟨y, hy, fun he => hsame (congrArg Prod.fst he)⟩
  | acknowledge _ =>
      exact ⟨rfl, rfl, rfl, Set.subset_insert _ _, subset_rfl, List.prefix_rfl, fun _ h => h⟩
  | report =>
      exact ⟨rfl, rfl, rfl, subset_rfl, Set.subset_insert _ _, List.prefix_rfl, fun _ h => h⟩

theorem ReceiveFrame.trans (h : ReceiveFrame s t) (h' : ReceiveFrame t r) : ReceiveFrame s r :=
  ⟨h'.sent.trans h.sent, h'.kept.trans h.kept, h'.items.trans h.items, h.acks.trans h'.acks,
    h.unas.trans h'.unas, h.out.trans h'.out, fun n hn => h'.received n (h.received n hn)⟩

theorem Receives.frame (h : Receives s t) : ReceiveFrame s t := by
  induction h with
  | refl =>
      exact ⟨rfl, rfl, rfl, subset_rfl, subset_rfl, List.prefix_rfl, fun _ h => h⟩
  | tail _ hstep ih => exact ih.trans hstep.frame

/-! ## Safety -/

/-- The invariant of the protocol. -/
structure Sound (s : Arq α) : Prop where
  items : ∀ n x, (n, x) ∈ s.items → s.sent[n]? = some x
  early : ∀ n x, (n, x) ∈ s.early → s.sent[n]? = some x ∧ s.out.length ≤ n
  out : s.out <+: s.sent
  acks : ∀ n ∈ s.acks, s.Received n
  unas : ∀ u ∈ s.unas, u ≤ s.out.length
  kept_lt : ∀ n ∈ s.kept, n < s.sent.length
  kept : ∀ n, n < s.sent.length → n ∈ s.kept ∨ s.Received n

theorem sound_new : Sound ({} : Arq α) where
  items _ _ h := absurd h (Set.notMem_empty _)
  early _ _ h := absurd h (Set.notMem_empty _)
  out := List.prefix_rfl
  acks _ h := absurd h (Set.notMem_empty _)
  unas _ h := absurd h (Set.notMem_empty _)
  kept_lt _ h := absurd h (Set.notMem_empty _)
  kept n h := absurd h (Nat.not_lt_zero n)

/-- A number without its item is not received yet, and one with it has the item that was sent. -/
theorem Sound.out_next (h : Sound s) (hx : (s.out.length, x) ∈ s.early) :
    s.out ++ [x] <+: s.sent := by
  obtain ⟨rest, hrest⟩ := h.out
  have hget := (h.early _ x hx).1
  rw [← hrest, List.getElem?_append_right (Nat.le_refl _), Nat.sub_self] at hget
  cases rest with
  | nil => cases hget
  | cons y rest =>
      cases hget
      exact ⟨rest, by rw [← hrest, List.append_assoc]; rfl⟩

theorem Sound.send (h : Sound s) (hstep : Send s t) : Sound t := by
  cases hstep with
  | number x =>
      have hmono : ∀ (n : Nat) (y : α), s.sent[n]? = some y → (s.sent ++ [x])[n]? = some y := by
        intro n y hy
        obtain ⟨hlt, -⟩ := List.getElem?_eq_some_iff.mp hy
        rw [List.getElem?_append_left hlt]
        exact hy
      refine ⟨fun n y hy => hmono n y (h.items n y hy),
        fun n y hy => ⟨hmono n y (h.early n y hy).1, (h.early n y hy).2⟩,
        h.out.trans (List.prefix_append _ _), h.acks, h.unas, ?_, ?_⟩
      · rintro n (rfl | hn)
        · rw [List.length_append]
          exact Nat.lt_succ_self _
        · rw [List.length_append]
          exact Nat.lt_succ_of_lt (h.kept_lt n hn)
      · intro n hn
        rw [List.length_append, List.length_singleton] at hn
        rcases Nat.lt_succ_iff_lt_or_eq.mp hn with hlt | rfl
        · exact (h.kept n hlt).imp_left (Set.mem_insert_of_mem _)
        · exact .inl (Set.mem_insert _ _)
  | @transmit n x hkept hsent =>
      refine ⟨?_, h.early, h.out, h.acks, h.unas, h.kept_lt, h.kept⟩
      rintro m y (he | hm)
      · cases he
        exact hsent
      · exact h.items m y hm
  | @settle n hack =>
      refine ⟨h.items, h.early, h.out, h.acks, h.unas, fun m hm => h.kept_lt m hm.1, ?_⟩
      intro m hm
      by_cases he : m = n
      · exact .inr (he ▸ h.acks n hack)
      · exact (h.kept m hm).imp_left fun hk => ⟨hk, he⟩
  | @settleBelow u huna =>
      refine ⟨h.items, h.early, h.out, h.acks, h.unas, fun m hm => h.kept_lt m hm.1, ?_⟩
      intro m hm
      by_cases hle : u ≤ m
      · exact (h.kept m hm).imp_left fun hk => ⟨hk, hle⟩
      · have hlt : m < u := Nat.lt_of_not_le hle
        exact .inr (.inl (Nat.lt_of_lt_of_le hlt (h.unas u huna)))

theorem Sound.receive (h : Sound s) (hstep : Receive s t) : Sound t := by
  have hframe := hstep.frame
  cases hstep with
  | @store n x hitem hnext =>
      refine ⟨h.items, ?_, h.out, fun m hm => hframe.received m (h.acks m hm), h.unas, h.kept_lt,
        fun m hm => (h.kept m hm).imp_right (hframe.received m)⟩
      rintro m y (he | hm)
      · cases he
        exact ⟨h.items n x hitem, hnext⟩
      · exact h.early m y hm
  | @handUp x hx =>
      refine ⟨h.items, ?_, h.out_next hx, fun m hm => hframe.received m (h.acks m hm), ?_,
        h.kept_lt, fun m hm => (h.kept m hm).imp_right (hframe.received m)⟩
      · rintro m y ⟨hm, hne⟩
        obtain ⟨hsent, hle⟩ := h.early m y hm
        refine ⟨hsent, ?_⟩
        rcases Nat.lt_or_eq_of_le hle with hlt | rfl
        · rw [List.length_append]
          exact hlt
        · -- one number has one item
          rw [(h.early _ x hx).1] at hsent
          cases hsent
          exact absurd rfl hne
      · intro u hu
        have hle := h.unas u hu
        rw [List.length_append]
        omega
  | @acknowledge n hn =>
      refine ⟨h.items, h.early, h.out, ?_, h.unas, h.kept_lt, h.kept⟩
      rintro m (rfl | hm)
      · exact hn
      · exact h.acks m hm
  | report =>
      refine ⟨h.items, h.early, h.out, h.acks, ?_, h.kept_lt, h.kept⟩
      rintro u (rfl | hu)
      · exact Nat.le_refl _
      · exact h.unas u hu

theorem Sound.sends (h : Sound s) (hsteps : Sends s t) : Sound t := by
  induction hsteps with
  | refl => exact h
  | tail _ hstep ih => exact ih.send hstep

theorem Sound.receives (h : Sound s) (hsteps : Receives s t) : Sound t := by
  induction hsteps with
  | refl => exact h
  | tail _ hstep ih => exact ih.receive hstep

/-! ## The protocol -/

/-- Whose step it is. -/
inductive Party
  | sender
  | receiver

/-- The protocol, from an empty network. -/
def protocol (α : Type u) : TSys (Arq α) Party where
  init s := s = {}
  step s p t := match p with
    | .sender => Send s t
    | .receiver => Receive s t

/-- Every interleaving of the two parties keeps the invariant. -/
theorem protocol_sound : (protocol α).Invariant Sound := by
  apply TSys.Inductive.invariant
  constructor
  · rintro s rfl
    exact sound_new
  · rintro s (_ | _) t h hstep
    · exact h.send hstep
    · exact h.receive hstep

theorem reachable_sends (h : (protocol α).Reachable s) (hsteps : Sends s t) :
    (protocol α).Reachable t := by
  induction hsteps with
  | refl => exact h
  | tail _ hstep ih => exact .step ih (show (protocol α).step _ .sender _ from hstep)

theorem reachable_receives (h : (protocol α).Reachable s) (hsteps : Receives s t) :
    (protocol α).Reachable t := by
  induction hsteps with
  | refl => exact h
  | tail _ hstep ih => exact .step ih (show (protocol α).step _ .receiver _ from hstep)

/-- When nothing is kept, the receiver has everything. -/
theorem Sound.received_all (h : Sound s) (hkept : s.kept = ∅) (hn : n < s.sent.length) :
    s.Received n := by
  rcases h.kept n hn with hmem | hrec
  · rw [hkept] at hmem
    exact absurd hmem (Set.notMem_empty n)
  · exact hrec

end Arq

end Keel
