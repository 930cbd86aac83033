import LearnSpace.Kcp.Bounds

/-!
# What arrives

Whatever the network has done, a segment is not given up before the other side has it
(`kept_or_received`). So everything was returned once nothing waits to be sent and nothing waits to
be taken (`returned_all`). A queue that has no room for another segment has a whole message
(`full_queue_takes`), so that taking messages always makes room.
-/

namespace LearnSpace.Kcp

open Keel

variable {conv : UInt32} {modes : Int → Prop} {link : Link} {kcp : IKCPCB} {s r : Arq Piece}
  {taken : List Piece} {W : Nat}

/-! ## Segments -/

theorem Sender.snd_nxt_toNat (h : Sender kcp s) (hshort : s.sent.length < 2 ^ 31) :
    kcp.snd_nxt.toNat = s.sent.length := by
  rw [h.nxt, UInt32.toNat_ofNat', Nat.mod_eq_of_lt (by omega)]

/-- **A segment is kept until it is received**: every number between `rcv_nxt` of one side and
`snd_nxt` of the other is in `snd_buf` of the one or in `rcv_buf` of the other, and if it is in both
they agree about it. -/
theorem kept_or_received (h : (connection conv modes).Reachable link)
    (hmade : ∀ side, (link side).made < 2 ^ 31) (side : Bool) {n : Nat}
    (hfrom : (link side).kcp.rcv_nxt.toNat ≤ n) (hto : n < (link !side).kcp.snd_nxt.toNat) :
    ((∃ seg ∈ (link !side).kcp.snd_buf, seg.number = n) ∨
        ∃ seg ∈ (link side).kcp.rcv_buf, seg.number = n) ∧
      ∀ seg ∈ (link !side).kcp.snd_buf, ∀ seg' ∈ (link side).kcp.rcv_buf,
        seg.number = n → seg'.number = n → seg.piece = seg'.piece := by
  obtain ⟨arq, taken, hside⟩ := connection_refines h hmade
  obtain ⟨hreach, hpeer⟩ := hside !side
  have hsafe := hpeer.safe_of_reachable hreach (hmade _)
  obtain ⟨-, hmine⟩ := hside side
  have hreceiver := hmine.speaks.receiver
  rw [hreceiver.nxt_toNat hsafe.sound hsafe.short] at hfrom
  rw [hpeer.speaks.sender.snd_nxt_toNat hsafe.short] at hto
  refine ⟨?_, ?_⟩
  · rcases hsafe.sound.kept n hto with hkept | hout | ⟨x, hearly⟩
    · exact .inl ((hpeer.speaks.sender.kept n).mp hkept)
    · exact absurd hout (Nat.not_lt.mpr hfrom)
    · obtain ⟨seg, hseg, hnumber, -⟩ := (hreceiver.early n x).mp hearly
      exact .inr ⟨seg, hseg, hnumber⟩
  · rintro seg hseg seg' hseg' rfl hsame
    have hsent := hpeer.speaks.sender.item seg hseg
    have hearly := (hreceiver.early seg.number seg'.piece).mpr ⟨seg', hseg', hsame, rfl⟩
    rw [(hsafe.sound.early _ _ hearly).1] at hsent
    exact (Option.some.inj hsent).symm

/-- Two messages in a datagram each, of which only the second one arrives. -/
def overtaken : List (Bool × Call) :=
  [(false, .nodelay 0 100 0 1), (false, .send [104]), (false, .update 0), (false, .send [105]),
    (false, .update 100), (true, .input [1])]

theorem kept_or_received_hello : ∃ link, (connection 7 (· = 0)).Reachable link ∧
    ((link false).kcp.snd_buf.map IKCPSEG.number, (link true).kcp.rcv_buf.map IKCPSEG.number) =
      ([0, 1], [1]) ∧
    ((∃ seg ∈ (link false).kcp.snd_buf, seg.number = 1) ∨
        ∃ seg ∈ (link true).kcp.rcv_buf, seg.number = 1) ∧
      ∀ seg ∈ (link false).kcp.snd_buf, ∀ seg' ∈ (link true).kcp.rcv_buf,
        seg.number = 1 → seg'.number = 1 → seg.piece = seg'.piece := by
  have hrun : ((Link.new 7).run overtaken).map (fun link =>
      (((link false).kcp.snd_buf.map IKCPSEG.number, (link true).kcp.rcv_buf.map IKCPSEG.number),
        (link true).kcp.rcv_nxt.toNat, (link false).kcp.snd_nxt.toNat, (link false).made,
        (link true).made)) = some (([0, 1], [1]), 0, 2, 2, 0) := by
    decide
  have hok : ∀ e ∈ overtaken, e.2.Ok (· = 0) := by decide
  obtain ⟨link, hreach, hend⟩ := exists_reachable hok hrun
  obtain ⟨hboth, hend⟩ := Prod.mk.inj hend
  obtain ⟨hfrom, hend⟩ := Prod.mk.inj hend
  obtain ⟨hto, hmade⟩ := Prod.mk.inj hend
  obtain ⟨hfalse, htrue⟩ := Prod.mk.inj hmade
  have hmade := made_lt hfalse htrue (by decide) (by decide)
  have hfrom : (link true).kcp.rcv_nxt.toNat ≤ 1 := by
    rw [hfrom]
    decide
  have hto : 1 < (link false).kcp.snd_nxt.toNat := by
    rw [hto]
    decide
  exact ⟨link, hreach, hboth, kept_or_received hreach hmade true hfrom hto⟩

/-! ## Everything -/

/-- There are no more segments in `snd_buf` than have a number. -/
theorem Sender.length_le (h : Sender kcp s) : kcp.snd_buf.length ≤ s.sent.length := by
  have hle := length_le_of_ascending h.sorted fun n hn => by
    obtain ⟨seg, hseg, rfl⟩ := List.mem_map.mp hn
    exact h.number_lt hseg
  rwa [List.length_map] at hle

/-- If nothing waits to be sent, nothing is kept and the queue is empty. -/
theorem Side.nothing_waits {e : Endpoint} (h : Side conv modes e s r taken) (hsound : s.Sound)
    (hmade : e.made < 2 ^ 31) (hkept : e.kcp.sending.Kept W) (hwait : e.kcp.ikcp_waitsnd = 0) :
    s.kept = ∅ ∧ e.kcp.snd_queue = [] := by
  have hshort := (h.safe hsound hmade).2
  have hlength := h.speaks.sender.length_le
  have hsum : e.kcp.nsnd_buf + e.kcp.nsnd_que =
      UInt32.ofNat (e.kcp.snd_buf.length + e.kcp.snd_queue.length) := by
    rw [UInt32.ofNat_add, show e.kcp.nsnd_buf = _ from hkept.buf,
      show e.kcp.nsnd_que = _ from hkept.queue]
    rfl
  rw [IKCPCB.ikcp_waitsnd, hsum, int_ofNat (by omega)] at hwait
  have hbuf : e.kcp.snd_buf = [] := List.eq_nil_of_length_eq_zero (by omega)
  refine ⟨Set.eq_empty_of_forall_notMem fun n hn => ?_, List.eq_nil_of_length_eq_zero (by omega)⟩
  obtain ⟨seg, hseg, -⟩ := (h.speaks.sender.kept n).mp hn
  rw [hbuf] at hseg
  exact absurd hseg List.not_mem_nil

/-- What an empty queue waits for has not come. -/
theorem Receiver.next_missing (h : Receiver kcp r taken) (hsafe : Safe r)
    (hkept : kcp.receiving.Kept W) (hready : kcp.receiving.Ready) (hqueue : kcp.rcv_queue = []) :
    ¬ r.Received r.out.length := by
  rintro (hout | ⟨x, hearly⟩)
  · exact Nat.lt_irrefl _ hout
  obtain ⟨seg, hseg, hnumber, -⟩ := (h.early _ x).mp hearly
  have hsn : seg.sn = kcp.rcv_nxt := by
    rw [← UInt32.toNat_inj, h.nxt_toNat hsafe.sound hsafe.short]
    exact hnumber
  have hready : ∀ first ∈ kcp.rcv_buf.head?, first.sn ≠ kcp.rcv_nxt := hready hqueue
  have hasc : (kcp.rcv_buf.map fun seg => Serial.ahead kcp.rcv_nxt seg.sn).Pairwise (· < ·) :=
    hkept.ascending
  cases hbuf : kcp.rcv_buf with
  | nil =>
      rw [hbuf] at hseg
      exact absurd hseg List.not_mem_nil
  | cons first rest =>
      rw [hbuf] at hseg hasc hready
      rcases List.mem_cons.mp hseg with rfl | hseg
      · exact hready _ rfl hsn
      · have hlt := (List.pairwise_cons.mp hasc).1 _ (List.mem_map_of_mem hseg)
        rw [hsn, Serial.ahead_self] at hlt
        exact Nat.not_lt_zero _ hlt

/-- **Nothing is lost.** In message mode, if nothing waits to be sent on one side and the queue of
the other one is empty, the other one has returned every message that was accepted. -/
theorem returned_all (h : (connection conv (· = 0)).Reachable link)
    (hmade : ∀ side, (link side).made < 2 ^ 31) (side : Bool)
    (hwait : (link !side).kcp.ikcp_waitsnd = 0) (hempty : (link side).kcp.rcv_queue = []) :
    (link side).returned = (link !side).accepted := by
  have hbounded : ∀ side, Bounded (2 ^ 31 - 1) (link side).kcp := fun side =>
    bounded (by decide) (by decide) _ (exposed_of_connection h side)
  obtain ⟨arq, taken, hside⟩ := connection_refines h hmade
  obtain ⟨hreach, hpeer⟩ := hside !side
  have hsafe := hpeer.safe_of_reachable hreach (hmade _)
  obtain ⟨-, hmine⟩ := hside side
  obtain ⟨hkept, hqueue⟩ := hpeer.nothing_waits hsafe.sound (hmade _) (hbounded _).sending hwait
  have hmissing := hmine.speaks.receiver.next_missing hsafe (hbounded side).receiving
    (hbounded side).ready hempty
  have hall : (arq !side).out = (arq !side).sent := by
    refine hsafe.sound.out.eq_of_length_le (Nat.not_lt.mp fun hlt => hmissing ?_)
    exact hsafe.sound.received_all hkept hlt
  have htaken : taken side = piecesOf (link !side).kcp (arq !side) := by
    have hout := hmine.speaks.receiver.queue
    rw [hempty, List.map_nil, List.append_nil, hall] at hout
    rw [piecesOf, hqueue, List.map_nil, List.append_nil, hout]
  rw [← hmine.incoming.returned, ← hpeer.outgoing.accepted fun _ hmode => hmode, htaken]

theorem returned_all_hello : ∃ link, (connection 7 (· = 0)).Reachable link ∧
    (link false).accepted = [[104, 105]] ∧ (link true).returned = (link false).accepted := by
  have hrun : ((Link.new 7).run hello).map (fun link =>
      ((link false).accepted, (link false).kcp.ikcp_waitsnd, (link true).kcp.rcv_queue,
        (link false).made, (link true).made)) = some ([[104, 105]], 0, [], 1, 0) := by
    decide
  have hok : ∀ e ∈ hello, e.2.Ok (· = 0) := by decide
  obtain ⟨link, hreach, hend⟩ := exists_reachable hok hrun
  obtain ⟨haccepted, hend⟩ := Prod.mk.inj hend
  obtain ⟨hwait, hend⟩ := Prod.mk.inj hend
  obtain ⟨hempty, hmade⟩ := Prod.mk.inj hend
  obtain ⟨hfalse, htrue⟩ := Prod.mk.inj hmade
  have hmade := made_lt hfalse htrue (by decide) (by decide)
  exact ⟨link, hreach, haccepted, returned_all hreach hmade true hwait hempty⟩

/-! ## A full queue -/

namespace IKCPCB

theorem totalLen_eq (segs : List IKCPSEG) :
    totalLen segs = UInt32.ofNat (segs.flatMap IKCPSEG.data).length := by
  induction segs with
  | nil => rfl
  | cons seg segs ih =>
      rw [totalLen, List.map_cons, List.sum_cons, ← totalLen, ih, List.flatMap_cons,
        List.length_append, UInt32.ofNat_add]
      rfl

/-- The converse of `peeksize_whole`, with the size that is found. -/
theorem peeksize_eq {seg : IKCPSEG} {segs : List IKCPSEG} (hqueue : kcp.rcv_queue = seg :: segs)
    (hcount : kcp.nrcv_que.toNat = kcp.rcv_queue.length) (hlength : kcp.rcv_queue.length < 2 ^ 31)
    (hwhole : seg.frg.toNat ≤ segs.length) :
    kcp.ikcp_peeksize = int (totalLen (splitMessage kcp.rcv_queue).1) := by
  unfold ikcp_peeksize
  rw [hqueue]
  dsimp only
  by_cases hzero : seg.frg = 0
  · rw [if_pos hzero, splitMessage, if_pos hzero, totalLen, List.map_singleton, List.sum_singleton]
  · rw [if_neg hzero, if_neg]
    rw [UInt32.lt_iff_toNat_lt, hcount, hqueue, UInt32.toNat_add, List.length_cons]
    rw [hqueue, List.length_cons] at hlength
    have hone : (1 : UInt32).toNat = 1 := rfl
    omega

/-- `ikcp_recv` of a message that is whole, with room for it or not. -/
theorem recv_eq {bytes : List Byte} {len : Int} (hne : kcp.rcv_queue ≠ []) (hlen : 0 ≤ len)
    (hmessage : (splitMessage kcp.rcv_queue).1.flatMap IKCPSEG.data = bytes)
    (hsize : bytes.length < 2 ^ 31)
    (hpeek : kcp.ikcp_peeksize = int (totalLen (splitMessage kcp.rcv_queue).1)) :
    kcp.ikcp_peeksize = bytes.length ∧
      if len < bytes.length then kcp.ikcp_recv len = some (kcp, -3, [])
      else ∃ kcp', kcp.ikcp_recv len = some (kcp', (bytes.length : Int), bytes) := by
  have htotal : int (totalLen (splitMessage kcp.rcv_queue).1) = bytes.length := by
    rw [totalLen_eq, hmessage, int_ofNat hsize]
  have hpeeksize := hpeek.trans htotal
  refine ⟨hpeeksize, ?_⟩
  unfold ikcp_recv
  rw [if_neg hne, if_neg (Int.not_lt.mpr hlen), Option.bind_some]
  dsimp only
  rw [hpeeksize, if_neg (show ¬ (bytes.length : Int) < 0 by omega)]
  by_cases hroom : len < bytes.length
  · rw [if_pos hroom, if_pos hroom]
  · rw [if_neg hroom]
    simp only [if_neg (show ¬ (bytes.length : Int) > len from hroom)]
    unfold takeMessage
    dsimp only
    rw [htotal, if_neg (not_not_intro rfl), hmessage]
    exact ⟨_, rfl⟩

end IKCPCB

/-- A message that was accepted is not longer than its length said. -/
theorem accepted_short (h : (connection conv modes).Reachable link) (side : Bool) :
    ∀ m ∈ (link side).accepted, m.length < 2 ^ 31 := by
  refine reachable_side (P := fun e => ∀ m ∈ e.accepted, m.length < 2 ^ 31)
    (fun _ hm => absurd hm List.not_mem_nil) ?_ h side
  intro e e' sent c hall hok hcall m hm
  rcases (Endpoint.call_history hcall).2 m hm with hm | rfl
  · exact hall m hm
  · exact hok

/-- What is in a full queue begins with a message, which comes behind those that were returned. -/
theorem Side.full_queue {e peer : Endpoint} (h : Side conv modes e s r taken) (hsound : r.Sound)
    (hout : Outgoing modes (piecesOf peer.kcp r) peer) (hbounded : Bounded (2 ^ 31 - 1) e.kcp)
    (hfull : e.kcp.rcv_wnd ≤ e.kcp.nrcv_que) :
    e.kcp.rcv_queue ≠ [] ∧
      e.kcp.ikcp_peeksize = int (IKCPCB.totalLen (IKCPCB.splitMessage e.kcp.rcv_queue).1) ∧
      e.returned ++ [(IKCPCB.splitMessage e.kcp.rcv_queue).1.flatMap IKCPSEG.data] <+:
        messages (piecesOf peer.kcp r) := by
  obtain ⟨hchain, hsmall⟩ := h.queue_framed hsound hout
  have hroom : e.kcp.rcv_queue.length ≤ 2 ^ 31 - 1 := hbounded.receiving.room
  have hcount : e.kcp.nrcv_que.toNat = e.kcp.rcv_queue.length := by
    rw [show e.kcp.nrcv_que = _ from hbounded.receiving.queue, UInt32.toNat_ofNat']
    exact Nat.mod_eq_of_lt (Nat.lt_of_le_of_lt hroom (by decide))
  have hmany : 128 ≤ e.kcp.rcv_queue.length :=
    hcount ▸ hbounded.rcv_wnd.1.trans (UInt32.le_iff_toNat_le.mp hfull)
  obtain ⟨seg, segs, hqueue⟩ := List.exists_cons_of_ne_nil (List.ne_nil_of_length_pos
    (Nat.lt_of_lt_of_le (by decide) hmany))
  have hwhole : seg.frg.toNat ≤ segs.length := by
    have hfrg := hsmall seg (hqueue ▸ List.mem_cons_self)
    rw [hqueue, List.length_cons] at hmany
    omega
  have hpeek := IKCPCB.peeksize_eq hqueue hcount (Nat.lt_of_le_of_lt hroom (by decide)) hwhole
  obtain ⟨hmessage, -⟩ := IKCPCB.splitMessage_messages segs [] (by rwa [hqueue] at hchain) hwhole
  rw [← hqueue] at hmessage
  refine ⟨hqueue ▸ List.cons_ne_nil _ _, hpeek, ?_⟩
  have hsplit := congrArg (List.map IKCPSEG.piece) (IKCPCB.splitMessage_append e.kcp.rcv_queue)
  rw [List.map_append] at hsplit
  have hbegin : taken ++ (IKCPCB.splitMessage e.kcp.rcv_queue).1.map IKCPSEG.piece <+: r.out := by
    rw [h.speaks.receiver.queue, ← hsplit, ← List.append_assoc]
    exact List.prefix_append _ _
  have hall := messages_prefix ((hbegin.trans hsound.out).trans
    (List.prefix_append r.sent (peer.kcp.snd_queue.map IKCPSEG.piece)))
  rw [messages_append h.incoming.framed, h.incoming.returned] at hall
  exact hmessage ▸ hall

/-- **A full queue has a whole message.** In message mode, when there is no room for another
segment, the next message that was accepted can be taken. -/
theorem full_queue_takes (h : (connection conv (· = 0)).Reachable link)
    (hmade : ∀ side, (link side).made < 2 ^ 31) (side : Bool)
    (hfull : (link side).kcp.rcv_wnd ≤ (link side).kcp.nrcv_que) {len : Int} (hlen : 0 ≤ len) :
    ∃ bytes, (link !side).accepted[(link side).returned.length]? = some bytes ∧
      (link side).kcp.ikcp_peeksize = bytes.length ∧
      if len < bytes.length then
        (link side).kcp.ikcp_recv len = some ((link side).kcp, -3, [])
      else ∃ kcp', (link side).kcp.ikcp_recv len = some (kcp', (bytes.length : Int), bytes) := by
  have hbounded := bounded (by decide) (by decide) _ (exposed_of_connection h side)
  have hshort := accepted_short h !side
  obtain ⟨arq, taken, hside⟩ := connection_refines h hmade
  obtain ⟨hreach, hpeer⟩ := hside !side
  have hsafe := hpeer.safe_of_reachable hreach (hmade _)
  obtain ⟨hne, hpeek, rest, hrest⟩ := (hside side).2.full_queue hsafe.sound hpeer.outgoing
    hbounded hfull
  rw [hpeer.outgoing.accepted fun _ hmode => hmode] at hrest
  rw [← hrest] at hshort ⊢
  exact ⟨_, by simp, IKCPCB.recv_eq hne hlen rfl (hshort _ (by simp)) hpeek⟩

/-- 128 empty messages, which fill the queue. -/
def crowd : List (Bool × Call) :=
  [(false, .nodelay 1 10 2 1), (false, .wndsize 128 128)] ++
    List.replicate 128 (false, .send []) ++ [(false, .update 0), (true, .input [0, 1, 2])]

set_option maxRecDepth 4000 in
theorem full_queue_takes_crowd : ∃ link, (connection 7 (· = 0)).Reachable link ∧
    ∃ bytes, (link false).accepted[(link true).returned.length]? = some bytes ∧
      (link true).kcp.ikcp_peeksize = bytes.length := by
  have hrun : ((Link.new 7).run crowd).map (fun link =>
      ((link true).kcp.nrcv_que, (link true).kcp.rcv_wnd, (link false).made,
        (link true).made)) = some (128, 128, 128, 0) := by
    decide +kernel
  have hok : ∀ e ∈ crowd, e.2.Ok (· = 0) := by decide +kernel
  obtain ⟨link, hreach, hend⟩ := exists_reachable hok hrun
  obtain ⟨hcount, hend⟩ := Prod.mk.inj hend
  obtain ⟨hwnd, hmade⟩ := Prod.mk.inj hend
  obtain ⟨hfalse, htrue⟩ := Prod.mk.inj hmade
  have hmade := made_lt hfalse htrue (by decide) (by decide)
  have hfull : (link true).kcp.rcv_wnd ≤ (link true).kcp.nrcv_que := by
    rw [hcount, hwnd]
    decide
  obtain ⟨bytes, hnext, hpeek, -⟩ := full_queue_takes hreach hmade true hfull (Int.le_refl 0)
  exact ⟨link, hreach, bytes, hnext, hpeek⟩

end LearnSpace.Kcp
