import LearnSpace.Kcp.Sender

/-!
# The receiving half

The receiving half of a control block is a receiver of the protocol that repeats until it is
acknowledged: what is in `rcv_queue`, and what `ikcp_recv` has taken from there, was handed up,
and `rcv_buf` holds what came early (`Receiver`). The acknowledgments that wait to be sent are of
segments that have been received (`Acked`).
-/

namespace LearnSpace.Kcp

open Keel

/-- The receiving half of `kcp` is the receiver of `r`, where `taken` has left the queue. -/
structure Receiver (kcp : IKCPCB) (r : Arq Piece) (taken : List Piece) : Prop where
  nxt : kcp.rcv_nxt = UInt32.ofNat r.out.length
  queue : r.out = taken ++ kcp.rcv_queue.map IKCPSEG.piece
  count : kcp.nrcv_que = UInt32.ofNat kcp.rcv_queue.length
  sorted : (kcp.rcv_buf.map IKCPSEG.number).Pairwise (· < ·)
  early : ∀ n x, (n, x) ∈ r.early ↔ ∃ seg ∈ kcp.rcv_buf, seg.number = n ∧ seg.piece = x

/-- What is to be acknowledged has been received. -/
def Acked (kcp : IKCPCB) (r : Arq Piece) : Prop :=
  ∀ entry ∈ kcp.acklist, r.Received entry.1.toNat

variable {kcp kcp' : IKCPCB} {r r' : Arq Piece} {taken : List Piece} {sn ts : UInt32}
  {seg : IKCPSEG} {segs : List IKCPSEG}

theorem Acked.mono (h : Acked kcp r) (hlist : kcp'.acklist = kcp.acklist)
    (hreceived : ∀ n, r.Received n → r'.Received n) : Acked kcp' r' := by
  intro entry hentry
  rw [hlist] at hentry
  exact hreceived _ (h entry hentry)

namespace Receiver

/-- The half of a control block where the four fields are the same. -/
theorem congr (h : Receiver kcp r taken) (hnxt : kcp'.rcv_nxt = kcp.rcv_nxt)
    (hcount : kcp'.nrcv_que = kcp.nrcv_que) (hqueue : kcp'.rcv_queue = kcp.rcv_queue)
    (hbuf : kcp'.rcv_buf = kcp.rcv_buf) : Receiver kcp' r taken where
  nxt := hnxt.trans h.nxt
  queue := by rw [hqueue, h.queue]
  count := by rw [hcount, hqueue, h.count]
  sorted := by
    rw [hbuf]
    exact h.sorted
  early := by
    rw [hbuf]
    exact h.early

theorem keep (h : Receiver kcp r taken) (hreceiving : kcp'.receiving = kcp.receiving) :
    Receiver kcp' r taken :=
  h.congr (congrArg Receiving.rcv_nxt hreceiving) (congrArg Receiving.nrcv_que hreceiving)
    (congrArg Receiving.rcv_queue hreceiving) (congrArg Receiving.rcv_buf hreceiving)

/-- The receiver is the same when what was handed up and what is early are. -/
theorem frame (h : Receiver kcp r taken) (hout : r'.out = r.out) (hearly : r'.early = r.early) :
    Receiver kcp r' taken where
  nxt := by rw [h.nxt, hout]
  queue := by rw [hout, h.queue]
  count := h.count
  sorted := h.sorted
  early := by
    rw [hearly]
    exact h.early

theorem nxt_toNat (h : Receiver kcp r taken) (hsound : r.Sound) (hshort : r.sent.length < 2 ^ 31) :
    kcp.rcv_nxt.toNat = r.out.length := by
  have hle := List.IsPrefix.length_le hsound.out
  rw [h.nxt, UInt32.toNat_ofNat', Nat.mod_eq_of_lt (by omega)]

/-! ## From `rcv_buf` to `rcv_queue` -/

/-- The first segment is the next one, and goes to the queue. -/
theorem handUp (h : Receiver { kcp with rcv_buf := seg :: segs } r taken) (hsound : r.Sound)
    (hshort : r.sent.length < 2 ^ 31) (hnext : seg.sn = kcp.rcv_nxt) :
    (r.out.length, seg.piece) ∈ r.early ∧
      Receiver { kcp.toQueue seg with rcv_buf := segs }
        { r with out := r.out ++ [seg.piece], early := r.early \ {(r.out.length, seg.piece)} }
        taken := by
  have hnumber : seg.number = r.out.length := by
    rw [IKCPSEG.number, hnext]
    exact h.nxt_toNat hsound hshort
  obtain ⟨hless, hsorted⟩ := List.pairwise_cons.mp h.sorted
  refine ⟨(h.early _ _).mpr ⟨seg, List.mem_cons_self, hnumber, rfl⟩, ?_, ?_, ?_, hsorted, ?_⟩
  · show kcp.rcv_nxt + 1 = _
    rw [show kcp.rcv_nxt = _ from h.nxt, List.length_append, List.length_singleton,
      UInt32.ofNat_add]
    rfl
  · show r.out ++ _ = taken ++ (kcp.rcv_queue ++ [seg]).map IKCPSEG.piece
    rw [show r.out = taken ++ kcp.rcv_queue.map IKCPSEG.piece from h.queue, List.map_append,
      List.append_assoc]
    rfl
  · show kcp.nrcv_que + 1 = UInt32.ofNat (kcp.rcv_queue ++ [seg]).length
    rw [show kcp.nrcv_que = _ from h.count, List.length_append, List.length_singleton,
      UInt32.ofNat_add]
    rfl
  · intro n x
    rw [Set.mem_sdiff, h.early]
    constructor
    · rintro ⟨⟨other, hother, rfl, rfl⟩, hne⟩
      rcases List.mem_cons.mp hother with rfl | hother
      · exact absurd (by rw [hnumber]; rfl) hne
      · exact ⟨other, hother, rfl, rfl⟩
    · rintro ⟨other, hother, rfl, rfl⟩
      refine ⟨⟨other, .tail _ hother, rfl, rfl⟩, fun he => ?_⟩
      -- the numbers that are left are greater
      have hlt : seg.number < other.number := hless _ (List.mem_map_of_mem hother)
      rw [hnumber, show other.number = r.out.length from congrArg Prod.fst he] at hlt
      exact Nat.lt_irrefl _ hlt

theorem moveAvailable (segs : List IKCPSEG) :
    ∀ {kcp : IKCPCB} {r : Arq Piece}, Receiver { kcp with rcv_buf := segs } r taken → r.Sound →
      r.sent.length < 2 ^ 31 →
      ∃ r', Arq.Receives r r' ∧ Receiver (kcp.moveAvailable segs) r' taken := by
  induction segs with
  | nil =>
      intro kcp r h _ _
      exact ⟨r, .refl, h⟩
  | cons seg segs ih =>
      intro kcp r h hsound hshort
      rw [IKCPCB.moveAvailable]
      split
      case isTrue hnext =>
        obtain ⟨hearly, hmoved⟩ := h.handUp hsound hshort hnext.1
        obtain ⟨r', hreceives, hreceiver⟩ := ih hmoved (hsound.receive (.handUp hearly)) hshort
        exact ⟨r', .head (.handUp hearly) hreceives, hreceiver⟩
      case isFalse => exact ⟨r, .refl, h⟩

/-- The loop over all of `rcv_buf`. -/
theorem moveBuf (h : Receiver kcp r taken) (hsound : r.Sound) (hshort : r.sent.length < 2 ^ 31) :
    ∃ r', Arq.Receives r r' ∧ Receiver (kcp.moveAvailable kcp.rcv_buf) r' taken :=
  moveAvailable kcp.rcv_buf h hsound hshort

/-! ## Data -/

/-- A segment is put in its place, unless one with its number is there. The places are those of a
measure by whose differences the numbers are compared. -/
theorem insertBack_spec {place : IKCPSEG → Nat} (hsorted : (segs.map place).Pairwise (· > ·))
    (hdiff : ∀ other ∈ segs, itimediff seg.sn other.sn = (place seg : Int) - place other)
    (hsame : ∀ other ∈ segs, place seg = place other → other.sn = seg.sn) :
    match IKCPCB.insertBack seg segs with
    | some segs' => (segs'.map place).Pairwise (· > ·) ∧
        (∀ other, other ∈ segs' ↔ other = seg ∨ other ∈ segs) ∧ segs'.length = segs.length + 1
    | none => ∃ other ∈ segs, other.sn = seg.sn := by
  induction segs with
  | nil => exact ⟨List.pairwise_singleton _ _, fun other => by simp, rfl⟩
  | cons first segs ih =>
      obtain ⟨hgreater, hrest⟩ := List.pairwise_cons.mp hsorted
      have ih := ih hrest (fun other hother => hdiff other (.tail _ hother))
        fun other hother => hsame other (.tail _ hother)
      rw [IKCPCB.insertBack]
      by_cases hthere : first.sn = seg.sn
      · rw [if_pos hthere]
        exact ⟨first, List.mem_cons_self, hthere⟩
      rw [if_neg hthere, hdiff first List.mem_cons_self]
      by_cases hbehind : (place seg : Int) - place first > 0
      · rw [if_pos hbehind]
        refine ⟨List.pairwise_cons.mpr ⟨?_, hsorted⟩, fun other => List.mem_cons, rfl⟩
        intro n hn
        obtain ⟨other, hother, rfl⟩ := List.mem_map.mp hn
        rcases List.mem_cons.mp hother with rfl | hother
        · omega
        · have hlt : place first > place other := hgreater _ (List.mem_map_of_mem hother)
          omega
      · rw [if_neg hbehind]
        have hne : place seg ≠ place first := fun hn =>
          hthere (hsame first List.mem_cons_self hn)
        cases hinsert : IKCPCB.insertBack seg segs with
        | none =>
            rw [hinsert] at ih
            obtain ⟨other, hother, hsn⟩ := ih
            exact ⟨other, .tail _ hother, hsn⟩
        | some segs' =>
            rw [hinsert] at ih
            obtain ⟨hsorted', hmem, hlength⟩ := ih
            refine ⟨List.pairwise_cons.mpr ⟨?_, hsorted'⟩, fun other => ?_,
              congrArg Nat.succ hlength⟩
            · intro n hn
              obtain ⟨other, hother, rfl⟩ := List.mem_map.mp hn
              rcases (hmem other).mp hother with rfl | hother
              · show place first > place other
                omega
              · exact hgreater _ (List.mem_map_of_mem hother)
            · rw [List.mem_cons, hmem, List.mem_cons]
              tauto

theorem pairwise_map_reverse {place : IKCPSEG → Nat} {l : List IKCPSEG} :
    (l.reverse.map place).Pairwise (· > ·) ↔ (l.map place).Pairwise (· < ·) := by
  rw [List.map_reverse, List.pairwise_reverse]

/-- A segment in the network is stored, or was received before. -/
theorem storeSeg (h : Receiver kcp r taken) (hsound : r.Sound) (hshort : r.sent.length < 2 ^ 31)
    (hitem : (seg.number, seg.piece) ∈ r.items) (hnext : r.out.length ≤ seg.number) :
    ∃ r', Arq.Receives r r' ∧ Receiver (kcp.storeSeg seg) r' taken ∧ r'.Received seg.number := by
  have hlt : ∀ {n : Nat} {x : Piece}, r.sent[n]? = some x → n < 2 ^ 31 := fun hget =>
    Nat.lt_trans (List.getElem?_eq_some_iff.mp hget).1 hshort
  have hbuf : ∀ other ∈ kcp.rcv_buf.reverse, other.number < 2 ^ 31 := fun other hother =>
    hlt (hsound.early _ _
      ((h.early _ _).mpr ⟨other, List.mem_reverse.mp hother, rfl, rfl⟩)).1
  have hspec := insertBack_spec (pairwise_map_reverse.mpr h.sorted)
    (fun other hother => itimediff_eq (hlt (hsound.items _ _ hitem)) (hbuf other hother))
    fun other _ hn => UInt32.toNat_inj.mp hn.symm
  unfold IKCPCB.storeSeg
  cases hinsert : IKCPCB.insertBack seg kcp.rcv_buf.reverse with
  | none =>
      rw [hinsert] at hspec
      obtain ⟨other, hother, hsn⟩ := hspec
      refine ⟨r, .refl, h, .inr ⟨other.piece, (h.early _ _).mpr
        ⟨other, List.mem_reverse.mp hother, ?_, rfl⟩⟩⟩
      rw [IKCPSEG.number, hsn]
      rfl
  | some segs' =>
      rw [hinsert] at hspec
      obtain ⟨hsorted, hmem, -⟩ := hspec
      refine ⟨_, .single (.store hitem hnext), ⟨h.nxt, h.queue, h.count, ?_, ?_⟩,
        .inr ⟨seg.piece, Set.mem_insert _ _⟩⟩
      · exact pairwise_map_reverse.mp (by rwa [List.reverse_reverse])
      · intro n x
        rw [Set.mem_insert_iff, h.early]
        constructor
        · rintro (he | ⟨other, hother, rfl, rfl⟩)
          · cases he
            exact ⟨seg, List.mem_reverse.mpr ((hmem seg).mpr (.inl rfl)), rfl, rfl⟩
          · exact ⟨other, List.mem_reverse.mpr ((hmem other).mpr
              (.inr (List.mem_reverse.mpr hother))), rfl, rfl⟩
        · rintro ⟨other, hother, rfl, rfl⟩
          rcases (hmem other).mp (List.mem_reverse.mp hother) with rfl | hother
          · exact .inl rfl
          · exact .inr ⟨other, List.mem_reverse.mp hother, rfl, rfl⟩

theorem parse_data (h : Receiver kcp r taken) (hsound : r.Sound) (hshort : r.sent.length < 2 ^ 31)
    (hitem : (seg.number, seg.piece) ∈ r.items) (hnext : r.out.length ≤ seg.number)
    (hwindow : itimediff seg.sn (kcp.rcv_nxt + kcp.rcv_wnd) < 0) :
    ∃ r', Arq.Receives r r' ∧ Receiver (kcp.ikcp_parse_data seg) r' taken ∧
      r'.Received seg.number := by
  have hlt : seg.number < 2 ^ 31 :=
    Nat.lt_trans (List.getElem?_eq_some_iff.mp (hsound.items _ _ hitem)).1 hshort
  have hnxt := h.nxt_toNat hsound hshort
  have hnew : ¬ itimediff seg.sn kcp.rcv_nxt < 0 := by
    rw [itimediff_eq hlt (by omega), hnxt]
    have hle : r.out.length ≤ seg.sn.toNat := hnext
    omega
  obtain ⟨stored, hstore, hreceiver, hreceived⟩ := h.storeSeg hsound hshort hitem hnext
  have hsent : stored.sent = r.sent := hstore.frame.sent
  obtain ⟨r', hreceives, hmoved⟩ :=
    hreceiver.moveBuf (hsound.receives hstore) (by rwa [hsent])
  unfold IKCPCB.ikcp_parse_data
  rw [if_neg (not_or.mpr ⟨by omega, hnew⟩)]
  exact ⟨r', hstore.trans hreceives, hmoved, hreceives.frame.received _ hreceived⟩

/-- A segment with data: it is filed, and will be acknowledged. -/
theorem push {input input' : Input} (h : Receiver input.kcp r taken) (hacked : Acked input.kcp r)
    (hsound : r.Sound) (hshort : r.sent.length < 2 ^ 31)
    (hitem : (seg.number, seg.piece) ∈ r.items) (hpush : input.push seg = some input') :
    ∃ r', Arq.Receives r r' ∧ Receiver input'.kcp r' taken ∧ Acked input'.kcp r' := by
  unfold Input.push at hpush
  split at hpush
  case isFalse =>
    cases hpush
    exact ⟨r, .refl, h, hacked⟩
  case isTrue hwindow =>
    obtain ⟨pushed, hack, hrest⟩ := Option.bind_eq_some_iff.mp hpush
    obtain ⟨ackblock, hpushed⟩ := IKCPCB.ack_push_spec hack
    have hreceiver : Receiver pushed r taken := by
      rw [hpushed]
      exact h.congr rfl rfl rfl rfl
    have hwindow : itimediff seg.sn (pushed.rcv_nxt + pushed.rcv_wnd) < 0 := by
      rw [hpushed]
      exact hwindow
    cases hrest
    have hlist : ∀ {r' : Arq Piece}, (∀ n, r.Received n → r'.Received n) →
        r'.Received seg.number →
        ∀ entry ∈ pushed.acklist, r'.Received entry.1.toNat := by
      intro r' hmono hseg entry hentry
      rw [hpushed] at hentry
      rcases List.mem_append.mp hentry with hentry | hentry
      · exact hmono _ (hacked entry hentry)
      · rw [List.mem_singleton.mp hentry]
        exact hseg
    have hlt : seg.number < 2 ^ 31 :=
      Nat.lt_trans (List.getElem?_eq_some_iff.mp (hsound.items _ _ hitem)).1 hshort
    have hnxt := hreceiver.nxt_toNat hsound hshort
    have hdiff : itimediff seg.sn pushed.rcv_nxt = (seg.number : Int) - r.out.length := by
      have hle := List.IsPrefix.length_le hsound.out
      rw [itimediff_eq hlt (by omega), hnxt]
      rfl
    dsimp only
    split
    case isTrue hnew =>
      have hnext : r.out.length ≤ seg.number := by omega
      obtain ⟨r', hreceives, hreceiver, hreceived⟩ :=
        hreceiver.parse_data hsound hshort hitem hnext hwindow
      refine ⟨r', hreceives, hreceiver, ?_⟩
      unfold Acked
      rw [IKCPCB.parse_data_keeps IKCPCB.acklist fun _ _ _ _ _ _ => rfl]
      exact hlist hreceives.frame.received hreceived
    case isFalse hold =>
      exact ⟨r, .refl, hreceiver, hlist (fun _ hn => hn) (.inl (by omega))⟩

end Receiver

end LearnSpace.Kcp
