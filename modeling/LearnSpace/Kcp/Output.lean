import LearnSpace.Kcp.Sender
import LearnSpace.Kcp.Wire

/-!
# What a flush sends

Whatever loops and conditions `ikcp_flush` goes through, its datagrams are whole segments one
behind the other (`Carries`): acknowledgments and probes with the header it has prepared, and
segments of `snd_buf` (`flush_spec`).
-/

namespace LearnSpace.Kcp

/-- Some whole segments of a kind, one behind the other. -/
def Carries (P : IKCPSEG → Prop) (bytes : List Byte) : Prop :=
  ∃ segs : List IKCPSEG, bytes = segs.flatMap IKCPSEG.bytes ∧ ∀ seg ∈ segs, P seg

namespace Carries

variable {P Q : IKCPSEG → Prop} {bytes bytes' : List Byte} {seg : IKCPSEG}

theorem nil : Carries P [] := ⟨[], rfl, fun _ h => absurd h List.not_mem_nil⟩

theorem append (h : Carries P bytes) (h' : Carries P bytes') : Carries P (bytes ++ bytes') := by
  obtain ⟨segs, rfl, hsegs⟩ := h
  obtain ⟨segs', rfl, hsegs'⟩ := h'
  refine ⟨segs ++ segs', List.flatMap_append.symm, fun seg hseg => ?_⟩
  exact (List.mem_append.mp hseg).elim (hsegs seg) (hsegs' seg)

theorem single (h : P seg) : Carries P seg.bytes :=
  ⟨[seg], (List.append_nil _).symm, fun _ hother => List.mem_singleton.mp hother ▸ h⟩

theorem imp (h : Carries P bytes) (himp : ∀ seg, P seg → Q seg) : Carries Q bytes := by
  obtain ⟨segs, heq, hsegs⟩ := h
  exact ⟨segs, heq, fun seg hseg => himp seg (hsegs seg hseg)⟩

theorem flatten {datagrams : List (List Byte)} (h : ∀ d ∈ datagrams, Carries P d) :
    Carries P datagrams.flatten := by
  induction datagrams with
  | nil => exact nil
  | cons d datagrams ih =>
      exact (h d List.mem_cons_self).append (ih fun d hd => h d (.tail _ hd))

end Carries

namespace IKCPCB

variable {P : IKCPSEG → Prop} {kcp kcp' : IKCPCB} {out out' : Output} {seg seg' : IKCPSEG}
  {need : Int} {wnd cwnd flag cmd : UInt32}

/-! ## Writing -/

/-- Everything that was written, passed on or not, is whole segments of a kind. -/
def Output.Of (P : IKCPSEG → Prop) (out : Output) : Prop :=
  Carries P out.buffer ∧ ∀ d ∈ out.datagrams, Carries P d

theorem Output.of_new : Output.Of P {} := ⟨.nil, fun _ h => absurd h List.not_mem_nil⟩

theorem Output.Of.pass (h : out.Of P) : out.pass.Of P := by
  unfold Output.pass
  split
  · exact h
  · refine ⟨.nil, fun d hd => ?_⟩
    rcases List.mem_append.mp hd with hd | hd
    · exact h.2 d hd
    · rw [List.mem_singleton.mp hd]
      exact h.1

theorem makeRoom_eq {size sum : Int} (hsize : out.size = some size)
    (hsum : checked (size + need) = some sum) :
    kcp.makeRoom out need = some (if sum > int kcp.mtu then out.pass else out) := by
  simp only [IKCPCB.makeRoom, hsize, hsum, Option.bind_eq_bind, Option.bind_some, Option.pure_def]

/-- The buffer is passed on, or it is not. -/
theorem makeRoom_cases (h : kcp.makeRoom out need = some out') : out' = out.pass ∨ out' = out := by
  simp only [IKCPCB.makeRoom, Option.bind_eq_bind, Option.bind_eq_some_iff] at h
  obtain ⟨size, -, sum, -, h⟩ := h
  cases h
  split
  · exact .inl rfl
  · exact .inr rfl

theorem Output.Of.makeRoom (h : out.Of P) (hroom : kcp.makeRoom out need = some out') :
    out'.Of P := by
  rcases makeRoom_cases hroom with rfl | rfl
  · exact h.pass
  · exact h

/-- `writeSeg` writes behind what is left in the buffer, if that is not too much for it. -/
theorem writeSeg_eq {before : Output} (hroom : kcp.makeRoom out need = some before)
    (seg : IKCPSEG) :
    kcp.writeSeg out need seg =
      if before.buffer.length + seg.bytes.length ≤ kcp.bufferSize.toNat then
        some { before with buffer := before.buffer ++ seg.bytes }
      else none := by
  have hlength : seg.bytes.length = (ikcp_encode_seg seg).length + seg.data.length :=
    List.length_append
  simp only [IKCPCB.writeSeg, write, hroom, Option.bind_eq_bind, Option.bind_some]
  by_cases hall : before.buffer.length + seg.bytes.length ≤ kcp.bufferSize.toNat
  · rw [if_pos hall, if_pos (by omega), Option.bind_some,
      if_pos (by rw [List.length_append]; omega), IKCPSEG.bytes, ← List.append_assoc]
  · rw [if_neg hall]
    split
    · rw [Option.bind_some, if_neg (by rw [List.length_append]; omega)]
    · rfl

/-- What `writeSeg` has written, and behind what. -/
theorem writeSeg_spec (h : kcp.writeSeg out need seg = some out') :
    ∃ before, kcp.makeRoom out need = some before ∧
      out' = { before with buffer := before.buffer ++ seg.bytes } := by
  obtain ⟨before, hroom⟩ : ∃ before, kcp.makeRoom out need = some before := by
    rw [IKCPCB.writeSeg, Option.bind_eq_bind, Option.bind_eq_some_iff] at h
    obtain ⟨before, hroom, -⟩ := h
    exact ⟨before, hroom⟩
  rw [writeSeg_eq hroom] at h
  split at h
  · cases h
    exact ⟨before, hroom, rfl⟩
  · cases h

theorem Output.Of.writeSeg (hout : out.Of P) (hseg : P seg)
    (h : kcp.writeSeg out need seg = some out') : out'.Of P := by
  obtain ⟨before, hroom, rfl⟩ := writeSeg_spec h
  have hof := hout.makeRoom hroom
  exact ⟨hof.1.append (.single hseg), hof.2⟩

/-- The acknowledgments, of which the last one stays in `seg`. -/
theorem Output.Of.flushAcks (acks : List (UInt32 × UInt32)) :
    ∀ {seg : IKCPSEG} {out : Output}, out.Of P →
      kcp.flushAcks acks seg out = some (seg', out') →
      (∀ entry ∈ acks, P { seg with sn := entry.1, ts := entry.2 }) →
      out'.Of P ∧ ∃ sn ts, seg' = { seg with sn := sn, ts := ts } := by
  induction acks with
  | nil =>
      intro seg out hout h _
      cases h
      exact ⟨hout, seg'.sn, seg'.ts, rfl⟩
  | cons entry acks ih =>
      intro seg out hout h hacks
      rw [IKCPCB.flushAcks, Option.bind_eq_bind, Option.bind_eq_some_iff] at h
      obtain ⟨written, hwrite, h⟩ := h
      obtain ⟨hof, sn, ts, rfl⟩ := ih (hout.writeSeg (hacks entry List.mem_cons_self) hwrite) h
        fun other hother => hacks other (.tail _ hother)
      exact ⟨hof, sn, ts, rfl⟩

theorem Output.Of.flushProbe (hout : out.Of P) (hseg : P { seg with cmd := cmd })
    (h : kcp.flushProbe flag cmd seg out = some out') : out'.Of P := by
  unfold IKCPCB.flushProbe at h
  split at h
  · exact hout.writeSeg hseg h
  · cases h
    exact hout

/-! ## The segments of `snd_buf` -/

theorem schedule_key (kcp : IKCPCB) (seg : IKCPSEG) (why : Reason) :
    (kcp.schedule seg why).key = seg.key := by
  cases why <;> rfl

/-- A segment of `snd_buf` is what it was, and was sent or not. -/
theorem flushSegment_cases {s s' : Sent} {sent : IKCPSEG}
    (h : kcp.flushSegment wnd seg s = some (sent, s')) :
    kcp.reason seg = none ∧ sent = seg ∧ s' = s ∨
      ∃ why, kcp.reason seg = some why ∧
        sent = { kcp.schedule seg why with ts := kcp.current, wnd := wnd, una := kcp.rcv_nxt } ∧
        kcp.writeSeg s.out (int (IKCP_OVERHEAD + seg.len)) sent = some s'.out := by
  unfold flushSegment at h
  cases hwhy : kcp.reason seg with
  | none =>
      rw [hwhy] at h
      cases h
      exact .inl ⟨rfl, rfl, rfl⟩
  | some why =>
      rw [hwhy] at h
      simp only [sendSegment, Option.bind_eq_bind, Option.bind_eq_some_iff] at h
      obtain ⟨written, hwrite, h⟩ := h
      cases h
      exact .inr ⟨why, rfl, rfl, by cases why <;> exact hwrite⟩

/-- The loop over `snd_buf` changes the times and the counts of segments, and sends some of them. -/
theorem flushData_spec (segs : List IKCPSEG) :
    ∀ {s s' : Sent} {segs' : List IKCPSEG}, kcp.flushData wnd segs s = some (segs', s') →
      segs'.map IKCPSEG.key = segs.map IKCPSEG.key ∧
        ∀ P : IKCPSEG → Prop, s.out.Of P → (∀ seg ∈ segs, ∀ sent : IKCPSEG, sent.key = seg.key →
          sent.una = kcp.rcv_nxt → P sent) → s'.out.Of P := by
  induction segs with
  | nil =>
      intro s s' segs' h
      cases h
      exact ⟨rfl, fun P hout _ => hout⟩
  | cons seg segs ih =>
      intro s s' segs' h
      obtain ⟨⟨sent, t⟩, hsent, h⟩ := Option.bind_eq_some_iff.mp h
      obtain ⟨⟨rest, u⟩, hrest, h⟩ := Option.bind_eq_some_iff.mp h
      cases h
      obtain ⟨hkeys, hof⟩ := ih hrest
      rcases flushSegment_cases hsent with ⟨-, rfl, rfl⟩ | ⟨why, -, hsegment, hwrite⟩
      · exact ⟨congrArg (sent.key :: ·) hkeys, fun P hout hall =>
          hof P hout fun seg hseg => hall seg (.tail _ hseg)⟩
      · have hkey : sent.key = seg.key := by
          rw [hsegment]
          exact schedule_key kcp seg why
        refine ⟨congrArg₂ List.cons hkey hkeys, fun P hout hall => ?_⟩
        refine hof P (hout.writeSeg (hall seg List.mem_cons_self sent hkey ?_) hwrite)
          fun seg hseg => hall seg (.tail _ hseg)
        rw [hsegment]

/-! ## Flushing -/

theorem probeWindow_spec (kcp : IKCPCB) : ∃ probe_wait ts_probe probe, kcp.probeWindow =
    { kcp with probe_wait := probe_wait, ts_probe := ts_probe, probe := probe } := by
  unfold probeWindow
  split
  · split
    · exact ⟨_, _, kcp.probe, rfl⟩
    · split
      · exact ⟨_, _, _, rfl⟩
      · exact ⟨kcp.probe_wait, kcp.ts_probe, kcp.probe, rfl⟩
  · exact ⟨_, _, kcp.probe, rfl⟩

theorem moveToBuf_keeps (cwnd wnd : UInt32) (queue : List IKCPSEG) : ∀ kcp : IKCPCB,
    (moveToBuf cwnd wnd kcp queue).settings = kcp.settings ∧
      (moveToBuf cwnd wnd kcp queue).receiving = kcp.receiving := by
  induction queue with
  | nil => exact fun kcp => ⟨rfl, rfl⟩
  | cons seg queue ih =>
      intro kcp
      rw [moveToBuf]
      split
      · exact ih _
      · exact ⟨rfl, rfl⟩

theorem toNat_min (a b : UInt32) : (min a b).toNat = min a.toNat b.toNat := by
  show (if a ≤ b then a else b).toNat = _
  split
  · rename_i hle
    exact (Nat.min_eq_left (UInt32.le_iff_toNat_le.mp hle)).symm
  · rename_i hle
    rw [UInt32.le_iff_toNat_le] at hle
    exact (Nat.min_eq_right (Nat.le_of_not_le hle)).symm

theorem toNat_max (a b : UInt32) : (max a b).toNat = max a.toNat b.toNat := by
  show (if a ≤ b then b else a).toNat = _
  split
  · rename_i hle
    exact (Nat.max_eq_right (UInt32.le_iff_toNat_le.mp hle)).symm
  · rename_i hle
    rw [UInt32.le_iff_toNat_le] at hle
    exact (Nat.max_eq_left (Nat.le_of_not_le hle)).symm

/-- The window to send in is not greater than the one that was set. -/
theorem window_le (kcp : IKCPCB) : kcp.window.toNat ≤ kcp.snd_wnd.toNat := by
  unfold window
  dsimp only
  split
  · rw [toNat_min, toNat_min]
    omega
  · rw [toNat_min]
    omega

theorem shrinkWindow_spec (kcp : IKCPCB) (cwnd : UInt32) (change : Nat) (lost : Bool) :
    ∃ ssthresh cwnd' incr, kcp.shrinkWindow cwnd change lost =
      { kcp with ssthresh := ssthresh, cwnd := cwnd', incr := incr } := by
  unfold shrinkWindow
  extract_lets ssthresh changed shrunk
  have hchanged : ∃ ssthresh cwnd' incr, changed =
      { kcp with ssthresh := ssthresh, cwnd := cwnd', incr := incr } := by
    unfold changed
    split
    · exact ⟨_, _, _, rfl⟩
    · exact ⟨kcp.ssthresh, kcp.cwnd, kcp.incr, rfl⟩
  have hshrunk : ∃ ssthresh cwnd' incr, shrunk =
      { changed with ssthresh := ssthresh, cwnd := cwnd', incr := incr } := by
    unfold shrunk
    split
    · exact ⟨_, _, _, rfl⟩
    · exact ⟨changed.ssthresh, changed.cwnd, changed.incr, rfl⟩
  obtain ⟨a, b, c, hchanged⟩ := hchanged
  obtain ⟨d, e, f, hshrunk⟩ := hshrunk
  rw [hshrunk, hchanged]
  split
  · exact ⟨_, _, _, rfl⟩
  · exact ⟨_, _, _, rfl⟩

/-- The header of what is sent without data. -/
def Headed (kcp : IKCPCB) (P : IKCPSEG → Prop) : Prop :=
  (∀ entry ∈ kcp.acklist, P { kcp.flushSeg with sn := entry.1, ts := entry.2 }) ∧
    ∀ sn ts cmd, cmd = IKCP_CMD_WASK ∨ cmd = IKCP_CMD_WINS →
      P { kcp.flushSeg with sn := sn, ts := ts, cmd := cmd }

theorem flushHead_spec (h : kcp.flushHead = some (kcp', wnd, out)) :
    kcp'.settings = kcp.settings ∧ kcp'.sending = kcp.sending ∧
      kcp'.receiving = { kcp.receiving with acklist := [] } ∧ ∀ P, Headed kcp P → out.Of P := by
  obtain ⟨⟨seg, acked⟩, hacks, h⟩ := Option.bind_eq_some_iff.mp h
  obtain ⟨asked, hask, h⟩ := Option.bind_eq_some_iff.mp h
  obtain ⟨told, htell, h⟩ := Option.bind_eq_some_iff.mp h
  obtain ⟨probe_wait, ts_probe, probe, hprobed⟩ := probeWindow_spec { kcp with acklist := [] }
  cases h
  rw [hprobed]
  refine ⟨rfl, rfl, rfl, fun P hP => ?_⟩
  obtain ⟨hof, sn, ts, rfl⟩ := Output.Of.flushAcks kcp.acklist Output.of_new hacks hP.1
  exact (hof.flushProbe (hP.2 sn ts _ (.inl rfl)) hask).flushProbe (hP.2 sn ts _ (.inr rfl)) htell

/-- The loop over `snd_buf`, and what is left in the buffer goes too. -/
theorem flushTail_cases {datagrams : List (List Byte)}
    (h : kcp.flushTail cwnd wnd out = some (kcp', datagrams)) :
    ∃ segs s, kcp.flushData wnd kcp.snd_buf { out, xmit := kcp.xmit, state := kcp.state } =
        some (segs, s) ∧
      shrinkWindow { kcp with snd_buf := segs, xmit := s.xmit, state := s.state } cwnd s.change
        s.lost = kcp' ∧ s.out.pass.datagrams = datagrams := by
  simp only [flushTail, Option.bind_eq_bind, Option.bind_eq_some_iff] at h
  obtain ⟨⟨segs, s⟩, hdata, size, -, h⟩ := h
  obtain ⟨hkcp, hdatagrams⟩ := Prod.mk.inj (Option.some.inj h)
  exact ⟨segs, s, hdata, hkcp, hdatagrams⟩

theorem flushTail_spec {datagrams : List (List Byte)}
    (h : kcp.flushTail cwnd wnd out = some (kcp', datagrams)) :
    ∃ segs, segs.map IKCPSEG.key = kcp.snd_buf.map IKCPSEG.key ∧ kcp'.settings = kcp.settings ∧
      kcp'.sending = { kcp.sending with snd_buf := segs } ∧ kcp'.receiving = kcp.receiving ∧
      ∀ P, out.Of P → (∀ seg ∈ kcp.snd_buf, ∀ sent : IKCPSEG, sent.key = seg.key →
        sent.una = kcp.rcv_nxt → P sent) → ∀ d ∈ datagrams, Carries P d := by
  obtain ⟨segs, s, hdata, hkcp, rfl⟩ := flushTail_cases h
  obtain ⟨hkeys, hof⟩ := flushData_spec _ hdata
  obtain ⟨ssthresh, cwnd', incr, hshrunk⟩ := shrinkWindow_spec
    { kcp with snd_buf := segs, xmit := s.xmit, state := s.state } cwnd s.change s.lost
  rw [← hkcp, hshrunk]
  exact ⟨segs, hkeys, rfl, rfl, rfl, fun P hout hall => (hof P hout hall).pass.2⟩

/-- **What a flush does.** The acknowledgments are gone, and the segments of the queue for which
the window has room are moved to `snd_buf`, where only times and counts change. The datagrams are
whole segments: acknowledgments, probes, and segments of `snd_buf`. -/
theorem flush_spec {datagrams : List (List Byte)} (hupdated : kcp.updated ≠ 0)
    (h : kcp.ikcp_flush = some (kcp', datagrams)) :
    ∃ (head : IKCPCB) (wnd : UInt32) (segs : List IKCPSEG), head.settings = kcp.settings ∧
      head.sending = kcp.sending ∧ head.receiving = { kcp.receiving with acklist := [] } ∧
      segs.map IKCPSEG.key =
        (moveToBuf head.window wnd head head.snd_queue).snd_buf.map IKCPSEG.key ∧
      kcp'.settings = kcp.settings ∧
      kcp'.sending =
        { (moveToBuf head.window wnd head head.snd_queue).sending with snd_buf := segs } ∧
      kcp'.receiving = { kcp.receiving with acklist := [] } ∧
      ∀ P, Headed kcp P →
        (∀ seg ∈ (moveToBuf head.window wnd head head.snd_queue).snd_buf, ∀ sent : IKCPSEG,
          sent.key = seg.key → sent.una = kcp.rcv_nxt → P sent) →
        ∀ d ∈ datagrams, Carries P d := by
  unfold ikcp_flush at h
  rw [if_neg hupdated] at h
  obtain ⟨⟨head, wnd, out⟩, hhead, htail⟩ := Option.bind_eq_some_iff.mp h
  obtain ⟨hsettings, hsending, hreceiving, hout⟩ := flushHead_spec hhead
  obtain ⟨segs, hkeys, hsettings', hsending', hreceiving', hdata⟩ := flushTail_spec htail
  obtain ⟨hmoved, hmoved'⟩ := moveToBuf_keeps head.window wnd head.snd_queue head
  have hnxt : (moveToBuf head.window wnd head head.snd_queue).rcv_nxt = kcp.rcv_nxt :=
    (congrArg Receiving.rcv_nxt hmoved').trans (congrArg Receiving.rcv_nxt hreceiving)
  refine ⟨head, wnd, segs, hsettings, hsending, hreceiving, hkeys, ?_, hsending', ?_,
    fun P hhead hsegs => hdata P (hout P hhead) (by rwa [hnxt])⟩
  · rw [hsettings', hmoved, hsettings]
  · rw [hreceiving', hmoved', hreceiving]

theorem flush_settings {datagrams : List (List Byte)}
    (h : kcp.ikcp_flush = some (kcp', datagrams)) : kcp'.settings = kcp.settings := by
  by_cases hupdated : kcp.updated = 0
  · rw [ikcp_flush, if_pos hupdated] at h
    cases h
    rfl
  · obtain ⟨_, _, _, _, _, _, _, hsettings, _⟩ := flush_spec hupdated h
    exact hsettings

theorem clock_spec (kcp : IKCPCB) (current : UInt32) : ∃ updated ts_flush, updated ≠ 0 ∧
    kcp.clock current =
      { kcp with current := current, updated := updated, ts_flush := ts_flush } := by
  unfold clock
  split
  · exact ⟨1, _, by decide, rfl⟩
  · rename_i hupdated
    exact ⟨_, _, hupdated, rfl⟩

theorem slap_spec (kcp : IKCPCB) :
    ∃ ts_flush, kcp.slap.1 = { kcp with ts_flush := ts_flush } := by
  unfold slap
  dsimp only
  split
  · exact ⟨_, rfl⟩
  · exact ⟨kcp.ts_flush, rfl⟩

/-- `ikcp_update` sets the clock, and flushes or not. -/
theorem update_cases {datagrams : List (List Byte)} {current : UInt32}
    (h : kcp.ikcp_update current = some (kcp', datagrams)) :
    ∃ updated ts_flush, updated ≠ 0 ∧
      let clocked :=
        { kcp with current := current, updated := updated, ts_flush := ts_flush }
      clocked = kcp' ∧ datagrams = [] ∨ clocked.ikcp_flush = some (kcp', datagrams) := by
  obtain ⟨updated, ts_flush, hupdated, hclock⟩ := clock_spec kcp current
  obtain ⟨ts_flush', hslap⟩ := slap_spec (kcp.clock current)
  unfold ikcp_update at h
  dsimp only at h
  rw [hslap, hclock] at h
  split at h
  · exact ⟨updated, _, hupdated, .inr h⟩
  · cases h
    exact ⟨updated, ts_flush', hupdated, .inl ⟨rfl, rfl⟩⟩

end IKCPCB

end LearnSpace.Kcp
