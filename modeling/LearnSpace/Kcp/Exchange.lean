import LearnSpace.Kcp.Output
import LearnSpace.Kcp.Receiver

/-!
# Two control blocks over a network

A control block is the sender of one direction of the protocol and the receiver of the other
(`Speaks`), and what it sends may be said of both (`Fine`). A flush and a datagram of the other
side that comes are some steps of the protocol (`Speaks.flush`, `Speaks.input`).
-/

namespace LearnSpace.Kcp

open Keel

/-- `kcp` is the sender of `s` and the receiver of `r`. -/
structure Speaks (kcp : IKCPCB) (s r : Arq Piece) (taken : List Piece) : Prop where
  sender : Sender kcp s
  receiver : Receiver kcp r taken
  acked : Acked kcp r

/-- A segment that the sender of `s` and receiver of `r` has put into the network. -/
structure Fine (conv : UInt32) (s r : Arq Piece) (seg : IKCPSEG) : Prop where
  conv : seg.conv = conv
  fits : seg.Fits
  una : seg.una.toNat ∈ r.unas
  cmd : seg.cmd = IKCP_CMD_PUSH ∧ (seg.number, seg.piece) ∈ s.items ∨
    seg.cmd = IKCP_CMD_ACK ∧ seg.number ∈ r.acks ∨
    seg.cmd = IKCP_CMD_WASK ∨ seg.cmd = IKCP_CMD_WINS

/-- The direction can still be told apart by the signs of differences. -/
structure Safe (s : Arq Piece) : Prop where
  sound : s.Sound
  short : s.sent.length < 2 ^ 31

variable {conv : UInt32} {kcp kcp' : IKCPCB} {s s' r r' : Arq Piece} {taken : List Piece}
  {seg : IKCPSEG}

theorem Fine.mono (h : Fine conv s r seg) (hitems : s.items ⊆ s'.items) (hacks : r.acks ⊆ r'.acks)
    (hunas : r.unas ⊆ r'.unas) : Fine conv s' r' seg where
  conv := h.conv
  fits := h.fits
  una := hunas h.una
  cmd := h.cmd.imp (And.imp_right fun hi => hitems hi)
    (.imp (And.imp_right fun ha => hacks ha) id)

theorem Fine.onWire_cmd (h : Fine conv s r seg) : seg.onWire.cmd = seg.cmd := by
  show UInt32.ofNat (seg.cmd.toNat % 256) = seg.cmd
  rcases h.cmd with ⟨hcmd, -⟩ | ⟨hcmd, -⟩ | hcmd | hcmd
  all_goals
    rw [hcmd]
    rfl

theorem Fine.onWire_piece (h : Fine conv s r seg) : seg.onWire.piece = seg.piece := by
  show (UInt32.ofNat (seg.frg.toNat % 256), seg.data) = (seg.frg, seg.data)
  rw [Nat.mod_eq_of_lt h.fits.1, UInt32.ofNat_toNat]

theorem Fine.push (h : Fine conv s r seg) (hcmd : seg.cmd = IKCP_CMD_PUSH) :
    (seg.number, seg.piece) ∈ s.items := by
  rcases h.cmd with ⟨-, hitem⟩ | ⟨hack, -⟩ | hask | htell
  · exact hitem
  · rw [hcmd] at hack
    cases hack
  · rw [hcmd] at hask
    cases hask
  · rw [hcmd] at htell
    cases htell

theorem Fine.ack (h : Fine conv s r seg) (hcmd : seg.cmd = IKCP_CMD_ACK) :
    seg.number ∈ r.acks := by
  rcases h.cmd with ⟨hpush, -⟩ | ⟨-, hack⟩ | hask | htell
  · rw [hcmd] at hpush
    cases hpush
  · exact hack
  · rw [hcmd] at hask
    cases hask
  · rw [hcmd] at htell
    cases htell

theorem Fine.whole (h : Fine conv s r seg) : seg.Whole conv where
  conv := h.conv
  data := h.fits.2
  cmd := by
    rw [h.onWire_cmd]
    rcases h.cmd with ⟨hcmd, -⟩ | ⟨hcmd, -⟩ | hcmd | hcmd
    · exact .inl hcmd
    · exact .inr (.inl hcmd)
    · exact .inr (.inr (.inl hcmd))
    · exact .inr (.inr (.inr hcmd))

theorem Safe.sends (h : Safe s) (hsends : Arq.Sends s s') (hsent : s'.sent = s.sent) : Safe s' :=
  ⟨h.sound.sends hsends, hsent ▸ h.short⟩

theorem Safe.receives (h : Safe r) (hreceives : Arq.Receives r r') : Safe r' :=
  ⟨h.sound.receives hreceives, hreceives.frame.sent ▸ h.short⟩

namespace Speaks

/-! ## Input -/

/-- **A segment of the other side** is some steps of both directions. -/
theorem segment {input input' : Input} (h : Speaks input.kcp s r taken) (hs : Safe s) (hr : Safe r)
    (hfine : Fine conv r s seg) (hsegment : input.segment seg.onWire = some input') :
    ∃ s' r', Arq.Sends s s' ∧ s'.sent = s.sent ∧ Arq.Receives r r' ∧
      Speaks input'.kcp s' r' taken ∧ input'.kcp.snd_queue = input.kcp.snd_queue := by
  obtain ⟨s₁, hsends, hsent, hsender⟩ :
      ∃ s₁, Arq.Sends s s₁ ∧ s₁.sent = s.sent ∧ Sender (input.header seg.onWire).kcp s₁ :=
    Sender.parse_una (h.sender.congr rfl rfl rfl rfl) hs.sound hs.short hfine.una
  obtain ⟨-, hreceiving, hqueue⟩ := Input.header_keeps input seg.onWire
  have hreceiver := h.receiver.keep hreceiving
  have hacked : Acked (input.header seg.onWire).kcp r :=
    h.acked.mono (congrArg Receiving.acklist hreceiving) fun _ hn => hn
  rcases Input.segment_cases hsegment with ⟨hcmd, hack⟩ | ⟨hcmd, hpush⟩ | ⟨-, -, probe, rfl⟩
  case inl =>
    -- an acknowledgment: the sender settles its number
    rw [hfine.onWire_cmd] at hcmd
    have hmem : seg.number ∈ s₁.acks := by
      rw [hsends.frame.acks]
      exact hfine.ack hcmd
    obtain ⟨measured, hsettings, hsending, hreceiving', heq⟩ := Input.ack_spec hack
    obtain ⟨s₂, hsends₂, hsent₂, hsender₂⟩ := (hsender.keep hsettings hsending).parse_ack hmem
    obtain ⟨-, hsame, hqueue'⟩ := Input.parse_ack_keeps measured seg.sn
    have hrec := hsame.trans hreceiving'
    refine ⟨s₂, r, hsends.trans hsends₂, hsent₂.trans hsent, .refl, ⟨?_, ?_, ?_⟩, ?_⟩
    · rw [heq]
      exact hsender₂
    · rw [heq]
      exact hreceiver.keep hrec
    · rw [heq]
      exact hacked.mono (congrArg Receiving.acklist hrec) fun _ hn => hn
    · rw [heq]
      exact (hqueue'.trans (congrArg Sending.snd_queue hsending)).trans hqueue
  case inr.inl =>
    -- data: the receiver files it
    rw [hfine.onWire_cmd] at hcmd
    have hitem : (seg.onWire.number, seg.onWire.piece) ∈ r.items := by
      rw [hfine.onWire_piece]
      exact hfine.push hcmd
    obtain ⟨r', hreceives, hreceiver', hacked'⟩ :=
      hreceiver.push hacked hr.sound hr.short hitem hpush
    obtain ⟨hsettings, hsending⟩ := Input.push_keeps hpush
    exact ⟨s₁, r', hsends, hsent, hreceives, ⟨hsender.keep hsettings hsending, hreceiver', hacked'⟩,
      (congrArg Sending.snd_queue hsending).trans hqueue⟩
  case inr.inr =>
    exact ⟨s₁, r, hsends, hsent, .refl, ⟨hsender.congr rfl rfl rfl rfl,
      hreceiver.congr rfl rfl rfl rfl, hacked⟩, hqueue⟩

/-- Some segments of the other side. -/
theorem segments (segs : List IKCPSEG) :
    ∀ {input input' : Input} {s r : Arq Piece}, Speaks input.kcp s r taken → Safe s → Safe r →
      (∀ seg ∈ segs, Fine conv r s seg) → input.segments segs = some input' →
      ∃ s' r', Arq.Sends s s' ∧ s'.sent = s.sent ∧ Arq.Receives r r' ∧
        Speaks input'.kcp s' r' taken ∧ input'.kcp.snd_queue = input.kcp.snd_queue := by
  induction segs with
  | nil =>
      intro input input' s r h _ _ _ hsegments
      cases hsegments
      exact ⟨s, r, .refl, rfl, .refl, h, rfl⟩
  | cons seg segs ih =>
      intro input input' s r h hs hr hfine hsegments
      obtain ⟨middle, hsegment, hrest⟩ := Option.bind_eq_some_iff.mp hsegments
      obtain ⟨s₁, r₁, hsends, hsent, hreceives, hspeaks, hqueue⟩ :=
        h.segment hs hr (hfine seg List.mem_cons_self) hsegment
      have hfine' : ∀ other ∈ segs, Fine conv r₁ s₁ other := by
        intro other hother
        refine (hfine other (.tail _ hother)).mono ?_ ?_ ?_
        · exact hreceives.frame.items.ge
        · exact hsends.frame.acks.ge
        · exact hsends.frame.unas.ge
      obtain ⟨s₂, r₂, hsends₂, hsent₂, hreceives₂, hspeaks₂, hqueue₂⟩ :=
        ih hspeaks (hs.sends hsends hsent) (hr.receives hreceives) hfine' hrest
      exact ⟨s₂, r₂, hsends.trans hsends₂, hsent₂.trans hsent, hreceives.trans hreceives₂,
        hspeaks₂, hqueue₂.trans hqueue⟩

/-- **A datagram that came**, or several that were joined, is some steps of both directions. -/
theorem input {data : List Byte} {ret : Int} (h : Speaks kcp s r taken) (hs : Safe s) (hr : Safe r)
    (hdata : Carries (Fine kcp.conv r s) data) (hinput : kcp.ikcp_input data = some (kcp', ret)) :
    ∃ s' r', Arq.Sends s s' ∧ s'.sent = s.sent ∧ Arq.Receives r r' ∧ Speaks kcp' s' r' taken ∧
      kcp'.snd_queue = kcp.snd_queue := by
  obtain ⟨segs, rfl, hfine⟩ := hdata
  by_cases hsize : int (UInt32.ofNat (segs.flatMap IKCPSEG.bytes).length) < int IKCP_OVERHEAD
  · rw [IKCPCB.ikcp_input, if_pos hsize] at hinput
    cases hinput
    exact ⟨s, r, .refl, rfl, .refl, h, rfl⟩
  · rw [kcp.input_segs (fun seg hseg => (hfine seg hseg).whole) hsize] at hinput
    obtain ⟨input, hsegments, hinput⟩ := Option.bind_eq_some_iff.mp hinput
    obtain ⟨settled, hsettle, heq⟩ := Option.map_eq_some_iff.mp hinput
    cases heq
    obtain ⟨s', r', hsends, hsent, hreceives, hspeaks, hqueue⟩ :=
      Speaks.segments segs h hs hr hfine hsegments
    refine ⟨s', r', hsends, hsent, hreceives, ?_⟩
    obtain ⟨cwnd, incr, hsettled⟩ := IKCPCB.settle_spec hsettle
    have hrest : kcp'.receiving = input.kcp.receiving ∧
        kcp'.snd_queue = input.kcp.snd_queue := by
      rcases hsettled with rfl | ⟨sn, rfl⟩
      · exact ⟨rfl, rfl⟩
      · exact ⟨rfl, rfl⟩
    exact ⟨⟨hspeaks.sender.settle hsettle, hspeaks.receiver.keep hrest.1,
      hspeaks.acked.mono (congrArg Receiving.acklist hrest.1) fun _ hn => hn⟩,
      hrest.2.trans hqueue⟩

/-! ## Flushing -/

/-- Acknowledgments can be sent for whatever was received. -/
theorem acknowledge (acks : List (UInt32 × UInt32)) (hacked : ∀ entry ∈ acks,
    r.Received entry.1.toNat) :
    ∃ r', Arq.Receives r r' ∧ r'.out = r.out ∧ r'.early = r.early ∧
      r.out.length ∈ r'.unas ∧ ∀ entry ∈ acks, entry.1.toNat ∈ r'.acks := by
  induction acks with
  | nil =>
      exact ⟨_, .single (.report r), rfl, rfl, Set.mem_insert _ _,
        fun _ hentry => absurd hentry List.not_mem_nil⟩
  | cons entry acks ih =>
      obtain ⟨r', hreceives, hout, hearly, huna, hmem⟩ := ih fun other hother =>
        hacked other (.tail _ hother)
      have hreceived := hreceives.frame.received _ (hacked entry List.mem_cons_self)
      refine ⟨_, hreceives.tail (.acknowledge hreceived), hout, hearly, huna, ?_⟩
      rintro other (_ | ⟨_, hother⟩)
      · exact Set.mem_insert _ _
      · exact Set.mem_insert_of_mem _ (hmem other hother)

/-- **A flush** is some steps of both directions, and its datagrams are what it may send. -/
theorem flush {datagrams : List (List Byte)} (h : Speaks kcp s r taken) (hr : Safe r)
    (hshort : s.sent.length + kcp.snd_queue.length < 2 ^ 31)
    (hflush : kcp.ikcp_flush = some (kcp', datagrams)) :
    ∃ s' r', Arq.Sends s s' ∧ Arq.Receives r r' ∧ Speaks kcp' s' r' taken ∧
      s'.sent ++ kcp'.snd_queue.map IKCPSEG.piece =
        s.sent ++ kcp.snd_queue.map IKCPSEG.piece ∧
      ∀ d ∈ datagrams, Carries (Fine kcp.conv s' r') d := by
  by_cases hupdated : kcp.updated = 0
  · rw [IKCPCB.ikcp_flush, if_pos hupdated] at hflush
    cases hflush
    exact ⟨s, r, .refl, .refl, h, rfl, fun _ hd => absurd hd List.not_mem_nil⟩
  obtain ⟨head, wnd, segs, hsettings, hsending, hreceiving, hkeys, hsettings', hsending',
    hreceiving', hdata⟩ := IKCPCB.flush_spec hupdated hflush
  obtain ⟨r', hreceives, hout, hearly, huna, hacks⟩ := acknowledge kcp.acklist h.acked
  have hqueue : head.snd_queue = kcp.snd_queue := congrArg Sending.snd_queue hsending
  obtain ⟨s₁, hsends, hmoved, hpieces⟩ := (h.sender.keep hsettings hsending).moveToBuf
    head.window wnd head.snd_queue (List.Subset.refl _) (by rwa [hqueue])
  obtain ⟨s', hsends', hsender, hsent, hitems⟩ := hmoved.transmit
  obtain ⟨hmsettings, -⟩ := IKCPCB.moveToBuf_keeps head.window wnd head.snd_queue head
  have hconv : (IKCPCB.moveToBuf head.window wnd head head.snd_queue).conv = kcp.conv :=
    congrArg Settings.conv (hmsettings.trans hsettings)
  have hnxt : kcp.rcv_nxt.toNat ∈ r'.unas := by
    rw [h.receiver.nxt_toNat hr.sound hr.short]
    exact huna
  have hfits : kcp.flushSeg.Fits := ⟨Nat.two_pow_pos 8, Nat.two_pow_pos 31⟩
  refine ⟨s', r', hsends.trans hsends', hreceives, ⟨?_, ?_, ?_⟩, ?_, hdata _ ⟨?_, ?_⟩ ?_⟩
  · exact hsender.congr ((congrArg Settings.conv hsettings').trans hconv.symm)
      (congrArg Sending.snd_nxt hsending') (congrArg Sending.snd_queue hsending')
      ((congrArg (List.map IKCPSEG.key) (congrArg Sending.snd_buf hsending')).trans hkeys)
  · exact (h.receiver.congr (congrArg Receiving.rcv_nxt hreceiving')
      (congrArg Receiving.nrcv_que hreceiving') (congrArg Receiving.rcv_queue hreceiving')
      (congrArg Receiving.rcv_buf hreceiving')).frame hout hearly
  · intro entry hentry
    rw [show kcp'.acklist = [] from congrArg Receiving.acklist hreceiving'] at hentry
    exact absurd hentry List.not_mem_nil
  · rw [hsent, show kcp'.snd_queue = _ from congrArg Sending.snd_queue hsending', ← hqueue]
    exact hpieces
  · intro entry hentry
    exact ⟨rfl, hfits, hnxt, .inr (.inl ⟨rfl, hacks entry hentry⟩)⟩
  · intro sn ts cmd hcmd
    exact ⟨rfl, hfits, hnxt, .inr (.inr hcmd)⟩
  · intro seg hseg sent hkey huna
    obtain ⟨hsegconv, hcmd⟩ := hmoved.form seg hseg
    refine ⟨?_, (hmoved.fits seg (List.mem_append_right _ hseg)).congr hkey, huna ▸ hnxt,
      .inl ⟨?_, ?_⟩⟩
    · rw [show sent.conv = seg.conv from congrArg Prod.fst hkey, hsegconv, hconv]
    · rw [show sent.cmd = seg.cmd from congrArg (fun k => k.2.1) hkey, hcmd]
    · rw [number_of_key hkey, show sent.piece = seg.piece from congrArg (fun k => k.2.2.2) hkey]
      exact hitems seg hseg

end Speaks

end LearnSpace.Kcp
