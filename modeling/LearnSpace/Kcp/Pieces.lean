import Mathlib.Data.List.Chain
import LearnSpace.Kcp.Sender

/-!
# Messages in pieces

A message goes into pieces that are counted down to 0 (`Framed`), and they are read back message
by message (`messages`). `ikcp_send` makes such pieces (`fragments_messages`), and what `ikcp_recv`
takes from them is one message (`splitMessage_messages`).
-/

namespace LearnSpace.Kcp

variable {pieces pieces' : List Piece} {frgs frgs' : List UInt32} {begun : List Byte}

/-! ## Reading pieces -/

/-- The messages that some pieces make, behind the bytes of one that has begun. -/
def messagesFrom (begun : List Byte) : List Piece → List (List Byte)
  | [] => []
  | (frg, data) :: pieces =>
    if frg = 0 then (begun ++ data) :: messagesFrom [] pieces
    else messagesFrom (begun ++ data) pieces

/-- The messages that are whole. -/
def messages (pieces : List Piece) : List (List Byte) := messagesFrom [] pieces

/-- The fragment numbers of some messages: each is one less than the one in front of it or the
first of a message, and the last one is 0. -/
structure Framed (frgs : List UInt32) : Prop where
  counted : frgs.IsChain fun a b => a ≠ 0 → a = b + 1
  complete : ∀ frg ∈ frgs.getLast?, frg = 0

theorem frgs_pieces (segs : List IKCPSEG) :
    (segs.map IKCPSEG.piece).map Prod.fst = segs.map IKCPSEG.frg := by
  rw [List.map_map]
  rfl

theorem bytes_pieces (segs : List IKCPSEG) :
    (segs.map IKCPSEG.piece).flatMap Prod.snd = segs.flatMap IKCPSEG.data := by
  rw [List.flatMap_map]
  rfl

theorem framed_nil : Framed [] := ⟨.nil, fun _ h => by cases h⟩

theorem Framed.append (h : Framed frgs) (h' : Framed frgs') : Framed (frgs ++ frgs') where
  counted := h.counted.append h'.counted fun a ha _ _ hne => absurd (h.complete a ha) hne
  complete frg hfrg := by
    cases frgs' with
    | nil =>
        rw [List.append_nil] at hfrg
        exact h.complete frg hfrg
    | cons a frgs' =>
        rw [List.getLast?_append_of_ne_nil _ (List.cons_ne_nil _ _)] at hfrg
        exact h'.complete frg hfrg

theorem Framed.last_right (h : Framed (frgs ++ frgs')) : ∀ frg ∈ frgs'.getLast?, frg = 0 := by
  intro frg hfrg
  cases frgs' with
  | nil => cases hfrg
  | cons a frgs' =>
      refine h.complete frg ?_
      rwa [List.getLast?_append_of_ne_nil _ (List.cons_ne_nil _ _)]

theorem messagesFrom_prefix (begun : List Byte) (pieces pieces' : List Piece) :
    messagesFrom begun pieces <+: messagesFrom begun (pieces ++ pieces') := by
  induction pieces generalizing begun with
  | nil => exact List.nil_prefix
  | cons p pieces ih =>
      obtain ⟨frg, data⟩ := p
      rw [List.cons_append, messagesFrom, messagesFrom]
      split
      · exact List.cons_prefix_cons.mpr ⟨rfl, ih []⟩
      · exact ih _

/-- More pieces do not change the messages there are. -/
theorem messages_prefix (h : pieces <+: pieces') : messages pieces <+: messages pieces' := by
  obtain ⟨rest, rfl⟩ := h
  exact messagesFrom_prefix [] pieces rest

theorem messagesFrom_append (hne : pieces ≠ [])
    (hcomplete : ∀ frg ∈ (pieces.map Prod.fst).getLast?, frg = 0) :
    messagesFrom begun (pieces ++ pieces') = messagesFrom begun pieces ++ messages pieces' := by
  induction pieces generalizing begun with
  | nil => exact absurd rfl hne
  | cons p pieces ih =>
      obtain ⟨frg, data⟩ := p
      rw [List.cons_append, messagesFrom, messagesFrom]
      cases pieces with
      | nil =>
          have hzero : frg = 0 := hcomplete frg rfl
          rw [if_pos hzero, if_pos hzero]
          rfl
      | cons q pieces =>
          have ih := fun begun => @ih begun (List.cons_ne_nil _ _) fun frg hfrg =>
            hcomplete frg (by rwa [List.map_cons, List.map_cons, List.getLast?_cons_cons])
          split
          · rw [ih]
            rfl
          · exact ih _

theorem messages_append (h : Framed (pieces.map Prod.fst)) :
    messages (pieces ++ pieces') = messages pieces ++ messages pieces' := by
  by_cases hne : pieces = []
  · rw [hne]
    rfl
  · exact messagesFrom_append hne h.complete

theorem flatten_messagesFrom (hne : pieces ≠ [])
    (hcomplete : ∀ frg ∈ (pieces.map Prod.fst).getLast?, frg = 0) :
    (messagesFrom begun pieces).flatten = begun ++ pieces.flatMap Prod.snd := by
  induction pieces generalizing begun with
  | nil => exact absurd rfl hne
  | cons p pieces ih =>
      obtain ⟨frg, data⟩ := p
      rw [messagesFrom, List.flatMap_cons]
      cases pieces with
      | nil =>
          rw [if_pos (hcomplete frg rfl)]
          simp [messagesFrom]
      | cons q pieces =>
          have ih := fun begun => @ih begun (List.cons_ne_nil _ _) fun frg hfrg =>
            hcomplete frg (by rwa [List.map_cons, List.map_cons, List.getLast?_cons_cons])
          split
          · rw [List.flatten_cons, ih, List.nil_append, List.append_assoc]
          · rw [ih, List.append_assoc]

/-- No byte is lost between pieces and messages. -/
theorem flatten_messages (h : Framed (pieces.map Prod.fst)) :
    (messages pieces).flatten = pieces.flatMap Prod.snd := by
  by_cases hne : pieces = []
  · rw [hne]
    rfl
  · exact flatten_messagesFrom hne h.complete

/-! ## The pieces of a message that is sent -/

namespace IKCPCB

variable {mss stream len : Int} {count : Nat} {buffer : List Byte}

theorem fragments_frgs (mss stream : Int) (count : Nat) :
    ∀ (buffer : List Byte) (len : Int), (fragments mss stream count buffer len).map IKCPSEG.frg =
      (List.range count).reverse.map fun i => if stream = 0 then UInt32.ofNat i else 0 := by
  induction count with
  | zero => exact fun _ _ => rfl
  | succ count ih =>
      intro buffer len
      rw [fragments, List.range_succ, List.reverse_append, List.map_cons, ih]
      rfl

theorem fragments_frg_lt {seg : IKCPSEG} (hseg : seg ∈ fragments mss stream count buffer len) :
    seg.frg.toNat < count := by
  have hmem := List.mem_map_of_mem hseg (f := IKCPSEG.frg)
  rw [fragments_frgs] at hmem
  obtain ⟨i, hi, hfrg⟩ := List.mem_map.mp hmem
  have hlt := List.mem_range.mp (List.mem_reverse.mp hi)
  rw [← hfrg]
  split
  · rw [UInt32.toNat_ofNat']
    exact Nat.lt_of_le_of_lt (Nat.mod_le _ _) hlt
  · exact Nat.zero_lt_of_lt hlt

@[simp] theorem length_fragments (mss stream : Int) (count : Nat) :
    ∀ (buffer : List Byte) (len : Int), (fragments mss stream count buffer len).length = count := by
  induction count with
  | zero => exact fun _ _ => rfl
  | succ count ih =>
      intro buffer len
      rw [fragments, List.length_cons, ih]

/-- Each segment has at most `mss` bytes. -/
theorem fragments_data (hmss : 0 ≤ mss) (count : Nat) :
    ∀ (buffer : List Byte) (len : Int), ∀ seg ∈ fragments mss stream count buffer len,
      (seg.data.length : Int) ≤ mss := by
  induction count with
  | zero => exact fun _ _ seg hseg => absurd hseg List.not_mem_nil
  | succ count ih =>
      intro buffer len seg hseg
      rcases List.mem_cons.mp hseg with rfl | hseg
      · refine Int.le_trans (Int.ofNat_le.mpr (List.length_take_le _ _)) ?_
        split
        · omega
        · omega
      · exact ih _ _ seg hseg

/-- Nothing is left out, if there are enough segments. -/
theorem fragments_bytes (hmss : 0 ≤ mss) (count : Nat) :
    ∀ (buffer : List Byte) (len : Int), 0 ≤ len → len ≤ count * mss →
      (fragments mss stream count buffer len).flatMap IKCPSEG.data = buffer.take len.toNat := by
  induction count with
  | zero =>
      intro buffer len hlen hroom
      rw [Int.natCast_zero, Int.zero_mul] at hroom
      rw [show len = 0 by omega]
      rfl
  | succ count ih =>
      intro buffer len hlen hroom
      have hmul : ((count + 1 : Nat) : Int) * mss = count * mss + mss := by
        rw [Int.natCast_succ, Int.add_mul, Int.one_mul]
      rw [fragments, List.flatMap_cons]
      dsimp only
      split
      · have hsplit : len.toNat = mss.toNat + (len - mss).toNat := by omega
        rw [ih _ _ (by omega) (by omega), hsplit, List.take_add]
      · have hnone : len - len = 0 := Int.sub_self len
        rw [ih _ _ (by omega) (by rw [hnone]; exact Int.mul_nonneg (Int.natCast_nonneg _) hmss),
          hnone]
        exact List.append_nil _

theorem framed_countdown {f : Nat → UInt32} (hzero : f 0 = 0)
    (hsucc : ∀ i, f (i + 1) ≠ 0 → f (i + 1) = f i + 1) (count : Nat) :
    Framed ((List.range count).reverse.map f) := by
  induction count with
  | zero => exact framed_nil
  | succ count ih =>
      rw [List.range_succ, List.reverse_append]
      cases count with
      | zero => exact ⟨.singleton _, fun frg hfrg => by cases hfrg; exact hzero⟩
      | succ count =>
          have hcons : (List.range (count + 1)).reverse.map f =
              f count :: (List.range count).reverse.map f := by
            rw [List.range_succ, List.reverse_append]
            rfl
          rw [hcons] at ih
          show Framed (f (count + 1) :: (List.range (count + 1)).reverse.map f)
          rw [hcons]
          refine ⟨.cons_cons (hsucc count) ih.counted, fun frg hfrg => ih.complete frg ?_⟩
          rwa [List.getLast?_cons_cons] at hfrg

/-- What `ikcp_send` makes is framed. -/
theorem fragments_framed (mss stream : Int) (count : Nat) (buffer : List Byte) (len : Int) :
    Framed ((fragments mss stream count buffer len).map IKCPSEG.frg) := by
  rw [fragments_frgs]
  refine framed_countdown ?_ ?_ count
  · split <;> rfl
  · intro i
    split
    · exact fun _ => UInt32.ofNat_add i 1
    · exact fun hne => absurd rfl hne

/-- Without streaming it is one message. -/
theorem fragments_messages (mss : Int) (count : Nat) (hcount : count < 2 ^ 32) :
    ∀ (begun buffer : List Byte) (len : Int),
      messagesFrom begun ((fragments mss 0 (count + 1) buffer len).map IKCPSEG.piece) =
        [begun ++ (fragments mss 0 (count + 1) buffer len).flatMap IKCPSEG.data] := by
  induction count with
  | zero =>
      intro begun buffer len
      simp [fragments, messagesFrom, IKCPSEG.piece]
  | succ count ih =>
      intro begun buffer len
      have hne : UInt32.ofNat (count + 1) ≠ 0 := by
        intro hzero
        have htoNat := congrArg UInt32.toNat hzero
        rw [UInt32.toNat_ofNat', Nat.mod_eq_of_lt hcount] at htoNat
        exact Nat.succ_ne_zero _ htoNat
      rw [fragments, List.map_cons, List.flatMap_cons]
      show messagesFrom begun ((UInt32.ofNat (count + 1), _) :: _) = _
      rw [messagesFrom, if_neg hne, ih (Nat.lt_of_succ_lt hcount), List.append_assoc]

end IKCPCB

/-! ## The pieces of a message that is taken -/

namespace IKCPCB

theorem splitMessage_append (segs : List IKCPSEG) :
    (splitMessage segs).1 ++ (splitMessage segs).2 = segs := by
  induction segs with
  | nil => rfl
  | cons seg segs ih =>
      rw [splitMessage]
      split
      · rfl
      · exact congrArg (seg :: ·) ih

theorem splitMessage_cons (seg : IKCPSEG) (segs : List IKCPSEG) :
    ∃ rest, (splitMessage (seg :: segs)).1 = seg :: rest := by
  rw [splitMessage]
  split
  · exact ⟨[], rfl⟩
  · exact ⟨_, rfl⟩

theorem splitMessage_last {seg : IKCPSEG} (hzero : seg.frg = 0) (segs : List IKCPSEG)
    (begun : List Byte) :
    messagesFrom begun ((splitMessage (seg :: segs)).1.map IKCPSEG.piece) =
        [begun ++ (splitMessage (seg :: segs)).1.flatMap IKCPSEG.data] ∧
      Framed ((splitMessage (seg :: segs)).1.map IKCPSEG.frg) := by
  rw [splitMessage, if_pos hzero]
  refine ⟨by simp [messagesFrom, IKCPSEG.piece, hzero], .singleton _, ?_⟩
  rintro frg hfrg
  cases hfrg
  exact hzero

/-- When as many segments are there as the first one says, the first ones are a message. -/
theorem splitMessage_messages (segs : List IKCPSEG) :
    ∀ {seg : IKCPSEG} (begun : List Byte),
      ((seg :: segs).map IKCPSEG.frg).IsChain (fun a b => a ≠ 0 → a = b + 1) →
      seg.frg.toNat ≤ segs.length →
      messagesFrom begun ((splitMessage (seg :: segs)).1.map IKCPSEG.piece) =
          [begun ++ (splitMessage (seg :: segs)).1.flatMap IKCPSEG.data] ∧
        Framed ((splitMessage (seg :: segs)).1.map IKCPSEG.frg) := by
  induction segs with
  | nil =>
      intro seg begun _ hlength
      exact splitMessage_last (UInt32.toNat_inj.mp (Nat.le_zero.mp hlength)) [] begun
  | cons next segs ih =>
      intro seg begun hchain hlength
      by_cases hzero : seg.frg = 0
      · exact splitMessage_last hzero _ begun
      · obtain ⟨hnext, hchain⟩ := List.isChain_cons_cons.mp hchain
        have hle : next.frg.toNat ≤ segs.length := by
          have hne : seg.frg.toNat ≠ 0 := fun h => hzero (UInt32.toNat_inj.mp h)
          have hadd : seg.frg.toNat = (next.frg.toNat + 1) % 2 ^ 32 := by
            rw [hnext hzero, UInt32.toNat_add]
            rfl
          rw [List.length_cons] at hlength
          have hlt := next.frg.toNat_lt
          omega
        obtain ⟨hmessages, hframed⟩ := ih (begun ++ seg.data) hchain hle
        obtain ⟨rest, hrest⟩ := splitMessage_cons next segs
        rw [splitMessage, if_neg hzero]
        dsimp only
        refine ⟨?_, ?_⟩
        · rw [List.map_cons, List.flatMap_cons, ← List.append_assoc, ← hmessages, IKCPSEG.piece,
            messagesFrom, if_neg hzero]
        · rw [hrest] at hframed ⊢
          refine ⟨.cons_cons hnext hframed.counted, fun frg hfrg => hframed.complete frg ?_⟩
          rwa [List.map_cons, List.map_cons, List.getLast?_cons_cons] at hfrg

end IKCPCB

end LearnSpace.Kcp
