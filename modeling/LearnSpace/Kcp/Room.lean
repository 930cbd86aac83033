import LearnSpace.Kcp.Bounds

/-!
# Room in the buffer

`ikcp_flush` writes into a buffer that has room for three datagrams. As long as `ikcp_setmtu` never
makes the segments that are queued too long for a datagram, it does not write behind the end of it,
and every datagram has at most `mtu` bytes (`datagrams_fit`).
-/

namespace LearnSpace.Kcp

open Keel

/-- The datagrams that were passed on, and what is left in the buffer, have at most `m` bytes. -/
def IKCPCB.Output.Short (m : Nat) (out : IKCPCB.Output) : Prop :=
  out.buffer.length ≤ m ∧ ∀ d ∈ out.datagrams, d.length ≤ m

theorem IKCPCB.Output.Short.pass {m : Nat} {out : IKCPCB.Output} (h : out.Short m) :
    out.pass.Short m ∧ out.pass.buffer = [] := by
  unfold IKCPCB.Output.pass
  split
  · rename_i hnil
    exact ⟨h, hnil⟩
  · refine ⟨⟨Nat.zero_le _, fun d hd => ?_⟩, rfl⟩
    rcases List.mem_append.mp hd with hd | hd
    · exact h.2 d hd
    · rw [List.mem_singleton.mp hd]
      exact h.1

/-- The size of a datagram is an `int`. -/
theorem IKCPCB.Output.Short.size {m : Nat} {out : IKCPCB.Output} (h : out.Short m)
    (hm : m < 2 ^ 30) : out.size = some (out.buffer.length : Int) := by
  have hle := h.1
  exact checked_eq (by omega) (by omega)

/-- What the settings say of datagrams. -/
def IKCPCB.extent (kcp : IKCPCB) : UInt32 × UInt32 × UInt32 := (kcp.mtu, kcp.mss, kcp.bufferSize)

/-- A control block with a buffer that has room for a datagram. -/
structure Spacious (kcp : IKCPCB) : Prop where
  mtu : 50 ≤ kcp.mtu.toNat ∧ kcp.mtu.toNat < 2 ^ 30
  mss : kcp.mss.toNat + 24 = kcp.mtu.toNat
  buffer : kcp.mtu.toNat ≤ kcp.bufferSize.toNat

/-- A segment that a datagram has room for. -/
def IKCPSEG.Small (kcp : IKCPCB) (seg : IKCPSEG) : Prop :=
  seg.Fits ∧ seg.data.length ≤ kcp.mss.toNat

variable {kcp kcp' : IKCPCB} {seg : IKCPSEG} {out : IKCPCB.Output} {wnd cwnd flag cmd : UInt32}

namespace Spacious

theorem keep (h : Spacious kcp) (hextent : kcp'.extent = kcp.extent) : Spacious kcp' := by
  obtain ⟨hmtu, hrest⟩ := Prod.mk.inj hextent
  obtain ⟨hmss, hsize⟩ := Prod.mk.inj hrest
  exact ⟨hmtu ▸ h.mtu, by rw [hmtu, hmss]; exact h.mss, by rw [hmtu, hsize]; exact h.buffer⟩

/-- Behind `makeRoom` the datagram has room for a segment. -/
theorem makeRoom (h : Spacious kcp) {n : Nat} (hn : n ≤ kcp.mtu.toNat)
    (hout : out.Short kcp.mtu.toNat) :
    ∃ before, kcp.makeRoom out n = some before ∧ before.buffer.length + n ≤ kcp.mtu.toNat ∧
      before.Short kcp.mtu.toNat := by
  have hlt := h.mtu.2
  have hmtu : int kcp.mtu = kcp.mtu.toNat := int_eq (Nat.lt_trans hlt (by decide))
  have hle := hout.1
  have hsum : checked (out.buffer.length + n) = some ((out.buffer.length : Int) + n) :=
    checked_eq (by omega) (by omega)
  have hmade : kcp.makeRoom out n =
      some (if (out.buffer.length : Int) + n > kcp.mtu.toNat then out.pass else out) := by
    rw [IKCPCB.makeRoom_eq (hout.size hlt) hsum, hmtu]
  refine ⟨_, hmade, ?_⟩
  split
  · obtain ⟨hshort, hnil⟩ := hout.pass
    exact ⟨by rw [hnil, List.length_nil]; omega, hshort⟩
  · exact ⟨by omega, hout⟩

/-- A segment is written. -/
theorem writeSeg (h : Spacious kcp) (hle : seg.bytes.length ≤ kcp.mtu.toNat)
    (hout : out.Short kcp.mtu.toNat) {need : Int} (hneed : need = seg.bytes.length) :
    ∃ out', kcp.writeSeg out need seg = some out' ∧ out'.Short kcp.mtu.toNat := by
  obtain ⟨before, hmade, hroom, hshort⟩ := h.makeRoom hle hout
  rw [hneed, IKCPCB.writeSeg_eq hmade, if_pos (hroom.trans h.buffer)]
  exact ⟨_, rfl, by rw [List.length_append]; exact hroom, hshort.2⟩

/-- A segment without data. -/
theorem writeHead (h : Spacious kcp) (hdata : seg.data = []) (hout : out.Short kcp.mtu.toNat) :
    ∃ out', kcp.writeSeg out (int IKCP_OVERHEAD) seg = some out' ∧
      out'.Short kcp.mtu.toNat := by
  have hlength : seg.bytes.length = 24 := by rw [IKCPSEG.length_bytes, hdata, List.length_nil]
  have hmtu := h.mtu.1
  exact h.writeSeg (by omega) hout (by rw [hlength]; rfl)

theorem flushAcks (h : Spacious kcp) (acks : List (UInt32 × UInt32)) :
    ∀ {seg : IKCPSEG} {out : IKCPCB.Output}, seg.data = [] → out.Short kcp.mtu.toNat →
      ∃ seg' out', kcp.flushAcks acks seg out = some (seg', out') ∧ seg'.data = [] ∧
        out'.Short kcp.mtu.toNat := by
  induction acks with
  | nil => exact fun {seg out} hdata hout => ⟨seg, out, rfl, hdata, hout⟩
  | cons entry acks ih =>
      obtain ⟨sn, ts⟩ := entry
      intro seg out hdata hout
      have hnext : ({ seg with sn, ts } : IKCPSEG).data = [] := hdata
      obtain ⟨written, hwrite, hshort⟩ := h.writeHead hnext hout
      obtain ⟨seg', out', hacks, hdata', hout'⟩ := ih hnext hshort
      refine ⟨seg', out', ?_, hdata', hout'⟩
      rw [IKCPCB.flushAcks]
      exact Option.bind_eq_some_iff.mpr ⟨written, hwrite, hacks⟩

theorem flushProbe (h : Spacious kcp) (hdata : seg.data = []) (hout : out.Short kcp.mtu.toNat)
    (flag cmd : UInt32) :
    ∃ out', kcp.flushProbe flag cmd seg out = some out' ∧ out'.Short kcp.mtu.toNat := by
  unfold IKCPCB.flushProbe
  split
  · have hprobe : ({ seg with cmd } : IKCPSEG).data = [] := hdata
    exact h.writeHead hprobe hout
  · exact ⟨out, rfl, hout⟩

/-- `ikcp_flush` up to the probes. -/
theorem flushHead (h : Spacious kcp) :
    ∃ head wnd out, kcp.flushHead = some (head, wnd, out) ∧ out.Short kcp.mtu.toNat := by
  have hnew : IKCPCB.Output.Short kcp.mtu.toNat {} :=
    ⟨Nat.zero_le _, fun _ hd => absurd hd List.not_mem_nil⟩
  have hseg : kcp.flushSeg.data = [] := rfl
  obtain ⟨seg, acked, hacks, hdata, hshort⟩ := h.flushAcks kcp.acklist hseg hnew
  obtain ⟨_, _, _, hprobed⟩ := IKCPCB.probeWindow_spec { kcp with acklist := [] }
  have hsame : (IKCPCB.probeWindow { kcp with acklist := [] }).extent = kcp.extent := by
    rw [hprobed]
    rfl
  have hmtu : (IKCPCB.probeWindow { kcp with acklist := [] }).mtu = kcp.mtu :=
    congrArg Prod.fst hsame
  have hspacious := h.keep hsame
  rw [← hmtu] at hshort
  obtain ⟨asked, hask, hshort⟩ := hspacious.flushProbe hdata hshort IKCP_ASK_SEND IKCP_CMD_WASK
  obtain ⟨told, htell, hshort⟩ := hspacious.flushProbe hdata hshort IKCP_ASK_TELL IKCP_CMD_WINS
  rw [hmtu] at hshort
  refine ⟨{ IKCPCB.probeWindow { kcp with acklist := [] } with probe := 0 }, seg.wnd, told, ?_,
    hshort⟩
  unfold IKCPCB.flushHead
  refine Option.bind_eq_some_iff.mpr ⟨_, hacks, ?_⟩
  refine Option.bind_eq_some_iff.mpr ⟨_, hask, ?_⟩
  exact Option.bind_eq_some_iff.mpr ⟨_, htell, rfl⟩

/-- An iteration of the loop over `snd_buf`. -/
theorem flushSegment (h : Spacious kcp) (hseg : seg.Small kcp) {s : IKCPCB.Sent}
    (hout : s.out.Short kcp.mtu.toNat) (wnd : UInt32) :
    ∃ sent s', kcp.flushSegment wnd seg s = some (sent, s') ∧ s'.out.Short kcp.mtu.toNat := by
  unfold IKCPCB.flushSegment
  cases hwhy : kcp.reason seg with
  | none => exact ⟨seg, s, rfl, hout⟩
  | some why =>
      obtain ⟨hfits, hle⟩ := hseg
      have hmss := h.mss
      have hmtu := h.mtu.2
      have hdata : (kcp.schedule seg why).data = seg.data := by cases why <;> rfl
      generalize hsent : ({ kcp.schedule seg why with
        ts := kcp.current, wnd := wnd, una := kcp.rcv_nxt } : IKCPSEG) = sent
      have hlength : sent.bytes.length = 24 + seg.data.length := by
        rw [IKCPSEG.length_bytes, ← hsent, ← hdata]
      have hlen : (IKCP_OVERHEAD + sent.len).toNat = 24 + seg.data.length := by
        rw [UInt32.toNat_add, IKCPSEG.len, UInt32.toNat_ofNat', ← hsent]
        show (24 + (kcp.schedule seg why).data.length % 2 ^ 32) % 2 ^ 32 = _
        rw [hdata]
        omega
      have hneed : int (IKCP_OVERHEAD + sent.len) = sent.bytes.length := by
        rw [int_eq (by omega), hlen, hlength]
      obtain ⟨written, hwrite, hshort⟩ := h.writeSeg (by omega) hout hneed
      have hsegment : ∃ s', kcp.sendSegment wnd seg why s = some (sent, s') ∧ s'.out = written := by
        simp only [IKCPCB.sendSegment, hsent, hwrite, Option.bind_eq_bind, Option.bind_some]
        exact ⟨_, rfl, rfl⟩
      obtain ⟨s', hsegment, rfl⟩ := hsegment
      exact ⟨sent, s', hsegment, hshort⟩

/-- The loop over `snd_buf`. -/
theorem flushData (h : Spacious kcp) (wnd : UInt32) (segs : List IKCPSEG) :
    ∀ {s : IKCPCB.Sent}, (∀ seg ∈ segs, seg.Small kcp) → s.out.Short kcp.mtu.toNat →
      ∃ segs' s', kcp.flushData wnd segs s = some (segs', s') ∧ s'.out.Short kcp.mtu.toNat := by
  induction segs with
  | nil => exact fun {s} _ hout => ⟨[], s, rfl, hout⟩
  | cons seg segs ih =>
      intro s hall hout
      obtain ⟨sent, t, hsent, hout⟩ := h.flushSegment (hall seg List.mem_cons_self) hout wnd
      obtain ⟨segs', s', hrest, hout⟩ := ih (fun seg hseg => hall seg (.tail _ hseg)) hout
      refine ⟨sent :: segs', s', ?_, hout⟩
      rw [IKCPCB.flushData]
      refine Option.bind_eq_some_iff.mpr ⟨_, hsent, ?_⟩
      exact Option.bind_eq_some_iff.mpr ⟨_, hrest, rfl⟩

end Spacious

/-! ## Segments that are to be sent -/

/-- A segment that comes may take segments out. -/
theorem Input.segment_sending {s s' : Input} (h : s.segment seg = some s') :
    s'.kcp.settings = s.kcp.settings ∧ s'.kcp.snd_queue = s.kcp.snd_queue ∧
      s'.kcp.snd_buf.Sublist s.kcp.snd_buf := by
  obtain ⟨hsettings, -, hqueue⟩ := Input.header_keeps s seg
  have hsub : (s.header seg).kcp.snd_buf.Sublist s.kcp.snd_buf := by
    unfold Input.header
    dsimp only
    rw [IKCPCB.shrink_buf_eq]
    exact List.dropWhile_sublist _
  rcases Input.segment_cases h with ⟨-, hack⟩ | ⟨-, hpush⟩ | ⟨-, -, probe, rfl⟩
  · obtain ⟨measured, hmeasured, hsending, -, heq⟩ := Input.ack_spec hack
    obtain ⟨hacked, -, hqueue'⟩ := Input.parse_ack_keeps measured seg.sn
    have hbuf : measured.snd_buf = (s.header seg).kcp.snd_buf := congrArg Sending.snd_buf hsending
    have htaken : ((measured.ikcp_parse_ack seg.sn).ikcp_shrink_buf).snd_buf.Sublist
        measured.snd_buf := by
      rw [IKCPCB.shrink_buf_eq]
      rcases IKCPCB.parse_ack_spec measured seg.sn with heq | ⟨segs, htake, heq⟩
      · rw [heq]
      · rw [heq]
        exact (Sending.Kept.takeOut_sublist htake).1
    rw [heq]
    exact ⟨hacked.trans (hmeasured.trans hsettings),
      hqueue'.trans ((congrArg Sending.snd_queue hsending).trans hqueue),
      htaken.trans (hbuf ▸ hsub)⟩
  · obtain ⟨hpushed, hsending⟩ := Input.push_keeps hpush
    have hbuf : s'.kcp.snd_buf = (s.header seg).kcp.snd_buf := congrArg Sending.snd_buf hsending
    exact ⟨hpushed.trans hsettings, (congrArg Sending.snd_queue hsending).trans hqueue,
      hbuf ▸ hsub⟩
  · exact ⟨hsettings, hqueue, hsub⟩

/-- Bytes that come may take segments out, and change counts of others. -/
theorem IKCPCB.input_sending {data : List Byte} {ret : Int}
    (h : kcp.ikcp_input data = some (kcp', ret)) :
    kcp'.settings = kcp.settings ∧ kcp'.snd_queue = kcp.snd_queue ∧
      (kcp'.snd_buf.map IKCPSEG.key).Sublist (kcp.snd_buf.map IKCPSEG.key) := by
  refine IKCPCB.input_keeps (P := fun k => k.settings = kcp.settings ∧
    k.snd_queue = kcp.snd_queue ∧
      (k.snd_buf.map IKCPSEG.key).Sublist (kcp.snd_buf.map IKCPSEG.key)) ?_ ?_
    ⟨rfl, rfl, List.Sublist.refl _⟩ h
  · rintro s s' seg ⟨hsettings, hqueue, hsub⟩ - hsegment
    obtain ⟨hsame, hsame', hbuf⟩ := Input.segment_sending hsegment
    exact ⟨hsame.trans hsettings, hsame'.trans hqueue, (hbuf.map _).trans hsub⟩
  · rintro k k' maxack una ⟨hsettings, hqueue, hsub⟩ hsettle
    obtain ⟨cwnd, incr, rfl | ⟨sn, rfl⟩⟩ := IKCPCB.settle_spec hsettle
    · exact ⟨hsettings, hqueue, hsub⟩
    · refine ⟨hsettings, hqueue, ?_⟩
      rw [Sender.passOver_keys]
      exact hsub

/-! ## Segments that fit -/

/-- A control block whose segments all fit into a datagram, with an `mtu` of `m`. -/
structure Fitting (m : UInt32) (kcp : IKCPCB) : Prop extends Spacious kcp where
  same : kcp.mtu = m
  segs : ∀ seg ∈ kcp.snd_queue ++ kcp.snd_buf, seg.Small kcp

/-- No piece is new. -/
def OldPieces (kcp kcp' : IKCPCB) : Prop :=
  ∀ seg ∈ kcp'.snd_queue ++ kcp'.snd_buf, ∃ old ∈ kcp.snd_queue ++ kcp.snd_buf,
    seg.piece = old.piece

theorem oldPieces_of_keys (hqueue : kcp'.snd_queue = kcp.snd_queue)
    (hkeys : (kcp'.snd_buf.map IKCPSEG.key).Sublist (kcp.snd_buf.map IKCPSEG.key)) :
    OldPieces kcp kcp' := by
  intro seg hseg
  rw [hqueue] at hseg
  rcases List.mem_append.mp hseg with hseg | hseg
  · exact ⟨seg, List.mem_append_left _ hseg, rfl⟩
  · obtain ⟨old, hold, hkey⟩ := List.mem_map.mp (hkeys.subset (List.mem_map_of_mem hseg))
    exact ⟨old, List.mem_append_right _ hold, (congrArg (fun k => k.2.2.2) hkey).symm⟩

theorem oldPieces_of_sending (h : kcp'.sending = kcp.sending) : OldPieces kcp kcp' := by
  have hbuf : kcp'.snd_buf = kcp.snd_buf := congrArg Sending.snd_buf h
  exact oldPieces_of_keys (congrArg Sending.snd_queue h) (by rw [hbuf])

theorem oldPieces_moveToBuf (cwnd wnd : UInt32) (queue : List IKCPSEG) : ∀ kcp : IKCPCB,
    ∀ seg ∈ (IKCPCB.moveToBuf cwnd wnd kcp queue).snd_queue ++
      (IKCPCB.moveToBuf cwnd wnd kcp queue).snd_buf,
    ∃ old ∈ queue ++ kcp.snd_buf, seg.piece = old.piece := by
  induction queue with
  | nil => exact fun kcp seg hseg => ⟨seg, hseg, rfl⟩
  | cons newseg queue ih =>
      intro kcp seg hseg
      rw [IKCPCB.moveToBuf] at hseg
      split at hseg
      · obtain ⟨old, hold, hpiece⟩ := ih _ seg hseg
        rcases List.mem_append.mp hold with hold | hold
        · exact ⟨old, List.mem_append_left _ (.tail _ hold), hpiece⟩
        · rcases List.mem_append.mp hold with hold | hold
          · exact ⟨old, List.mem_append_right _ hold, hpiece⟩
          · refine ⟨newseg, List.mem_append_left _ List.mem_cons_self, ?_⟩
            rw [hpiece, List.mem_singleton.mp hold]
            rfl
      · exact ⟨seg, hseg, rfl⟩

theorem extent_of_settings (h : kcp'.settings = kcp.settings) : kcp'.extent = kcp.extent :=
  congrArg (fun s => (s.mtu, s.mss, s.bufferSize)) h

variable {m : UInt32}

namespace Fitting

theorem new (conv : UInt32) : Fitting IKCP_MTU_DEF (ikcp_create conv) where
  mtu := ⟨show 50 ≤ 1400 by decide, show 1400 < 2 ^ 30 by decide⟩
  mss := rfl
  buffer := show 1400 ≤ 4272 by decide
  same := rfl
  segs _ hseg := absurd hseg List.not_mem_nil

theorem keep (h : Fitting m kcp) (hextent : kcp'.extent = kcp.extent)
    (hpieces : OldPieces kcp kcp') : Fitting m kcp' where
  toSpacious := h.toSpacious.keep hextent
  same := (congrArg Prod.fst hextent).trans h.same
  segs seg hseg := by
    obtain ⟨old, hold, hpiece⟩ := hpieces seg hseg
    obtain ⟨hfits, hle⟩ := h.segs old hold
    have hmss : kcp'.mss = kcp.mss := congrArg (fun extent => extent.2.1) hextent
    have hfrg : seg.frg = old.frg := congrArg Prod.fst hpiece
    have hdata : seg.data = old.data := congrArg Prod.snd hpiece
    rw [IKCPSEG.Small, IKCPSEG.Fits, hfrg, hdata, hmss]
    exact ⟨hfits, hle⟩

/-- Only the sending half and the settings matter. -/
theorem congr (h : Fitting m kcp) (hextent : kcp'.extent = kcp.extent)
    (hsending : kcp'.sending = kcp.sending) : Fitting m kcp' :=
  h.keep hextent (oldPieces_of_sending hsending)

/-- **A flush has room**, and its datagrams are not too long. -/
theorem flush (h : Fitting m kcp) :
    ∃ kcp' datagrams, kcp.ikcp_flush = some (kcp', datagrams) ∧
      (∀ d ∈ datagrams, d.length ≤ m.toNat) ∧ Fitting m kcp' := by
  by_cases hupdated : kcp.updated = 0
  · exact ⟨kcp, [], if_pos hupdated, fun _ hd => absurd hd List.not_mem_nil, h⟩
  obtain ⟨head, wnd, out, hhead, hshort⟩ := h.flushHead
  obtain ⟨hsettings, hsending, -, -⟩ := IKCPCB.flushHead_spec hhead
  obtain ⟨hsettings', -⟩ := IKCPCB.moveToBuf_keeps head.window wnd head.snd_queue head
  have hmoved : Fitting m (IKCPCB.moveToBuf head.window wnd head head.snd_queue) :=
    (h.congr (extent_of_settings hsettings) hsending).keep (extent_of_settings hsettings')
      (oldPieces_moveToBuf head.window wnd head.snd_queue head)
  have htail : kcp.ikcp_flush = IKCPCB.flushTail
      (IKCPCB.moveToBuf head.window wnd head head.snd_queue) head.window wnd out := by
    unfold IKCPCB.ikcp_flush
    rw [if_neg hupdated, hhead]
    rfl
  rw [htail]
  rw [h.same, ← hmoved.same] at hshort
  generalize IKCPCB.moveToBuf head.window wnd head head.snd_queue = k at *
  obtain ⟨segs, s, hdata, hout⟩ := hmoved.flushData wnd k.snd_buf
    (s := { out, xmit := k.xmit, state := k.state })
    (fun seg hseg => hmoved.segs seg (List.mem_append_right _ hseg)) hshort
  have hsize := hout.size hmoved.mtu.2
  refine ⟨_, _, Option.bind_eq_some_iff.mpr ⟨_, hdata,
    Option.bind_eq_some_iff.mpr ⟨_, hsize, rfl⟩⟩, ?_, ?_⟩
  · rw [← hmoved.same]
    exact hout.pass.1.2
  · obtain ⟨ssthresh, cwnd, incr, hshrunk⟩ := IKCPCB.shrinkWindow_spec
      { k with snd_buf := segs, xmit := s.xmit, state := s.state } head.window s.change s.lost
    rw [hshrunk]
    exact hmoved.keep rfl
      (oldPieces_of_keys rfl (by rw [(IKCPCB.flushData_spec _ hdata).1]))

/-- The same for `ikcp_update`. -/
theorem update (h : Fitting m kcp) (current : UInt32) :
    ∃ kcp' datagrams, kcp.ikcp_update current = some (kcp', datagrams) ∧
      (∀ d ∈ datagrams, d.length ≤ m.toNat) ∧ Fitting m kcp' := by
  obtain ⟨updated, ts_flush, -, hclock⟩ := IKCPCB.clock_spec kcp current
  obtain ⟨ts_flush', hslap⟩ := IKCPCB.slap_spec (kcp.clock current)
  rw [hclock] at hslap
  have htimed : ∀ t, Fitting m { (kcp.clock current).slap.1 with ts_flush := t } := by
    intro t
    rw [hclock, hslap]
    exact h.congr rfl rfl
  unfold IKCPCB.ikcp_update
  dsimp only
  split
  · exact (htimed _).flush
  · exact ⟨_, _, rfl, fun _ hd => absurd hd List.not_mem_nil,
      htimed (kcp.clock current).slap.1.ts_flush⟩

theorem send {buffer : List Byte} {ret : Int} (h : Fitting m kcp) (hl : buffer.length < 2 ^ 31)
    (hsend : kcp.ikcp_send buffer buffer.length = some (kcp', ret)) : Fitting m kcp' := by
  have hmss := h.mss
  have hmtu := h.mtu
  have hsized : kcp.Sized := ⟨by omega, by omega⟩
  have hfits : ∀ seg ∈ kcp.snd_queue, seg.Fits := fun seg hseg =>
    (h.segs seg (List.mem_append_left _ hseg)).1
  obtain ⟨filled, segs, hqueued, rfl⟩ := IKCPCB.send_spec hsized hl hfits hsend
  refine ⟨h.toSpacious.keep rfl, h.same, fun seg hseg => ?_⟩
  rcases List.mem_append.mp hseg with hseg | hseg
  · refine ⟨hqueued.fits seg hseg, ?_⟩
    rcases hqueued.sized seg hseg with hold | hle
    · exact (h.segs seg (List.mem_append_left _ hold)).2
    · exact hle
  · exact h.segs seg (List.mem_append_right _ hseg)

/-- **Bytes that come**, whatever they are. -/
theorem input {data : List Byte} {ret : Int} (h : Fitting m kcp)
    (hinput : kcp.ikcp_input data = some (kcp', ret)) : Fitting m kcp' := by
  obtain ⟨hsettings, hqueue, hkeys⟩ := IKCPCB.input_sending hinput
  exact h.keep (extent_of_settings hsettings) (oldPieces_of_keys hqueue hkeys)

/-- `ikcp_setmtu` to something that is not less. -/
theorem setmtu {mtu : Int} (h : Fitting m kcp) (hle : int kcp.mtu ≤ mtu) (hlt : mtu < 2 ^ 30) :
    ∃ m', Fitting m' (kcp.ikcp_setmtu mtu).1 ∧ m.toNat ≤ m'.toNat := by
  have hlow := h.mtu.1
  have hmss := h.mss
  rw [int_eq (Nat.lt_trans h.mtu.2 (by decide)), h.same] at hle
  rw [h.same] at hlow hmss
  obtain ⟨n, rfl⟩ := Int.eq_ofNat_of_zero_le (show 0 ≤ mtu by omega)
  have hn : (UInt32.ofNat n).toNat = n := by
    rw [UInt32.toNat_ofNat', Nat.mod_eq_of_lt (by omega)]
  have hoverhead : (UInt32.ofNat n - IKCP_OVERHEAD).toNat = n - 24 := by
    rw [UInt32.toNat_sub, hn, show IKCP_OVERHEAD.toNat = 24 from rfl]
    omega
  have hsize : ((UInt32.ofNat n + IKCP_OVERHEAD) * 3).toNat = (n + 24) * 3 := by
    rw [UInt32.toNat_mul, UInt32.toNat_add, hn, show IKCP_OVERHEAD.toNat = 24 from rfl,
      show (3 : UInt32).toNat = 3 from rfl]
    omega
  unfold IKCPCB.ikcp_setmtu
  rw [if_neg (show ¬ ((n : Int) < 50 ∨ (n : Int) < int IKCP_OVERHEAD) by
    rw [show int IKCP_OVERHEAD = 24 from rfl]; omega), ofInt_natCast]
  dsimp only
  refine ⟨UInt32.ofNat n, ⟨⟨?_, ?_, ?_⟩, rfl, fun seg hseg => ?_⟩, by omega⟩
  · show 50 ≤ (UInt32.ofNat n).toNat ∧ (UInt32.ofNat n).toNat < 2 ^ 30
    omega
  · show (UInt32.ofNat n - IKCP_OVERHEAD).toNat + 24 = (UInt32.ofNat n).toNat
    omega
  · show (UInt32.ofNat n).toNat ≤ ((UInt32.ofNat n + IKCP_OVERHEAD) * 3).toNat
    omega
  · obtain ⟨hfits, hdata⟩ := h.segs seg hseg
    refine ⟨hfits, ?_⟩
    show seg.data.length ≤ (UInt32.ofNat n - IKCP_OVERHEAD).toNat
    omega

end Fitting

theorem nodelay_extent (kcp : IKCPCB) (on ms resend nc : Int) :
    (kcp.ikcp_nodelay on ms resend nc).extent = kcp.extent := by
  unfold IKCPCB.ikcp_nodelay
  extract_lets delayed timed resent
  have hdelayed : delayed.extent = kcp.extent := by unfold delayed; split <;> rfl
  have htimed : timed.extent = delayed.extent := by unfold timed; split <;> rfl
  have hresent : resent.extent = timed.extent := by unfold resent; split <;> rfl
  rw [← hdelayed, ← htimed, ← hresent]
  split <;> rfl

theorem wndsize_extent (kcp : IKCPCB) (sndwnd rcvwnd : Int) :
    (kcp.ikcp_wndsize sndwnd rcvwnd).extent = kcp.extent := by
  unfold IKCPCB.ikcp_wndsize
  split <;> split <;> rfl

/-! ## Runs -/

/-- A call that does not make datagrams shorter. -/
def Call.Widens (kcp : IKCPCB) : Call → Prop
  | .setmtu mtu => int kcp.mtu ≤ mtu ∧ mtu < 2 ^ 30
  | _ => True

/-- One side whose segments fit, and whose datagrams did. -/
structure Brief (m : UInt32) (e : Endpoint) : Prop where
  fitting : Fitting m e.kcp
  wire : ∀ d ∈ e.wire, d.length ≤ m.toNat

/-- Whatever is called, the segments fit, perhaps with a greater `mtu`. -/
theorem Brief.call {e e' : Endpoint} {sent : List (List Byte)} {c : Call} (h : Brief m e)
    (hok : c.Ok fun _ => True) (hwidens : c.Widens e.kcp) (hcall : e.call sent c = some e') :
    ∃ m', Brief m' e' := by
  have hfitting := h.fitting
  have hkeep (hextent : e'.kcp.extent = e.kcp.extent) (hsending : e'.kcp.sending = e.kcp.sending)
      (hwire : e'.wire = e.wire) : ∃ m', Brief m' e' :=
    ⟨m, hfitting.congr hextent hsending, hwire ▸ h.wire⟩
  have houtput {datagrams : List (List Byte)} {kcp : IKCPCB}
      (hshort : ∀ d ∈ datagrams, d.length ≤ m.toNat) (hfitting : Fitting m kcp)
      (hcall : e.output (some (kcp, datagrams)) = some e') : ∃ m', Brief m' e' := by
    cases hcall
    exact ⟨m, hfitting, fun d hd => (List.mem_append.mp hd).elim (h.wire d) (hshort d)⟩
  cases c with
  | send buffer =>
      obtain ⟨⟨kcp, ret⟩, hsend, heq⟩ := Option.bind_eq_some_iff.mp hcall
      cases heq
      exact ⟨m, hfitting.send hok hsend, h.wire⟩
  | recv len =>
      obtain ⟨⟨kcp, ret, bytes⟩, hrecv, heq⟩ := Option.bind_eq_some_iff.mp hcall
      cases heq
      obtain ⟨hsettings, hsending, -⟩ := IKCPCB.recv_keeps hrecv
      exact hkeep (extent_of_settings hsettings) hsending rfl
  | update current =>
      obtain ⟨kcp, datagrams, hupdate, hshort, hfitting⟩ := hfitting.update current
      exact houtput hshort hfitting (hupdate ▸ hcall)
  | flush =>
      obtain ⟨kcp, datagrams, hflush, hshort, hfitting⟩ := hfitting.flush
      exact houtput hshort hfitting (hflush ▸ hcall)
  | input picks =>
      obtain ⟨⟨kcp, ret⟩, hinput, heq⟩ := Option.bind_eq_some_iff.mp hcall
      cases heq
      exact ⟨m, hfitting.input hinput, h.wire⟩
  | setmtu mtu =>
      cases hcall
      obtain ⟨m', hwider, hle⟩ := hfitting.setmtu hwidens.1 hwidens.2
      exact ⟨m', hwider, fun d hd => (h.wire d hd).trans hle⟩
  | interval ms =>
      cases hcall
      exact hkeep rfl rfl rfl
  | nodelay on ms resend nc =>
      cases hcall
      exact hkeep (nodelay_extent e.kcp on ms resend nc)
        (IKCPCB.nodelay_same e.kcp on ms resend nc).sending rfl
  | wndsize sndwnd rcvwnd =>
      cases hcall
      exact hkeep (wndsize_extent e.kcp sndwnd rcvwnd)
        (IKCPCB.wndsize_same e.kcp sndwnd rcvwnd).sending rfl
  | stream on =>
      cases hcall
      exact hkeep rfl rfl rfl

/-- A side that sends three bytes in a datagram. -/
theorem three_sent : ∃ a b e, Endpoint.call { kcp := ikcp_create 7 } [] (.send [1, 2, 3]) = some a ∧
    a.call [] (.update 100) = some b ∧ b.call [] .flush = some e ∧
      e.wire.map List.length = [27] ∧ e.kcp.snd_buf.length = 1 := by
  have hrun : (((Endpoint.call { kcp := ikcp_create 7 } [] (.send [1, 2, 3])).bind fun e =>
      e.call [] (.update 100)).bind fun e => e.call [] .flush).map
        (fun e => (e.wire.map List.length, e.kcp.snd_buf.length)) = some ([27], 1) := by
    decide
  obtain ⟨e, hrun, hend⟩ := Option.map_eq_some_iff.mp hrun
  obtain ⟨b, hrun, hflush⟩ := Option.bind_eq_some_iff.mp hrun
  obtain ⟨a, hsend, hupdate⟩ := Option.bind_eq_some_iff.mp hrun
  exact ⟨a, b, e, hsend, hupdate, hflush, (Prod.mk.inj hend).1, (Prod.mk.inj hend).2⟩

/-- The condition is needed: when `mtu` has become too small for a segment that is queued, a flush
does write behind the end of the buffer. -/
theorem shrunk_overruns : ∃ e, (exposed 7 128).Reachable e ∧ e.kcp.ikcp_flush = none := by
  have hrun : (((Endpoint.call { kcp := ikcp_create 7 } [] (.send (List.replicate 200 0))).bind
      fun e => e.call [] (.setmtu 50)).bind fun e => e.call [] (.update 100)).map
        (fun e => e.kcp.ikcp_flush.isNone) = some true := by
    decide +kernel
  obtain ⟨e, hrun, hnone⟩ := Option.map_eq_some_iff.mp hrun
  obtain ⟨shrunk, hrun, hupdate⟩ := Option.bind_eq_some_iff.mp hrun
  obtain ⟨sent, hsend, hsetmtu⟩ := Option.bind_eq_some_iff.mp hrun
  have hfirst : (exposed 7 128).step { kcp := ikcp_create 7 }
      ([], .send (List.replicate 200 0)) sent :=
    ⟨show (List.replicate 200 (0 : Byte)).length < 2 ^ 31 by rw [List.length_replicate]; decide,
      trivial, hsend⟩
  have hsecond : (exposed 7 128).step sent ([], .setmtu 50) shrunk :=
    ⟨show IsInt 50 by decide, trivial, hsetmtu⟩
  have hthird : (exposed 7 128).step shrunk ([], .update 100) e := ⟨trivial, trivial, hupdate⟩
  exact ⟨e, (((TSys.Reachable.init rfl).step hfirst).step hsecond).step hthird,
    Option.isNone_iff_eq_none.mp hnone⟩

end LearnSpace.Kcp
