import LearnSpace.Kcp.Clock
import LearnSpace.Kcp.Room

/-!
# What was sent

A flush leaves nothing out: a segment that is in `snd_buf` behind it was there before and is not
due, or is in one of the datagrams (`flush_sends`). So no segment waits in `snd_buf` that was never
passed to the output callback (`numbered_sent`).
-/

namespace LearnSpace.Kcp

open Keel IKCPCB

variable {P : IKCPSEG → Prop} {kcp kcp' : IKCPCB} {seg sent : IKCPSEG} {bytes bytes' : List Byte}
  {out out' : Output} {need : Int} {wnd : UInt32} {datagrams : List (List Byte)}

/-! ## Datagrams -/

/-- Some whole segments, and which one is among them. -/
def Holds (sent : IKCPSEG) (bytes : List Byte) : Prop :=
  ∃ segs : List IKCPSEG, bytes = segs.flatMap IKCPSEG.bytes ∧ sent ∈ segs

theorem Holds.append (h : Holds sent bytes) (seg : IKCPSEG) : Holds sent (bytes ++ seg.bytes) := by
  obtain ⟨segs, rfl, hmem⟩ := h
  refine ⟨segs ++ [seg], ?_, List.mem_append_left _ hmem⟩
  rw [List.flatMap_append, List.flatMap_singleton]

theorem Carries.holds (h : Carries P bytes) (sent : IKCPSEG) :
    Holds sent (bytes ++ sent.bytes) := by
  obtain ⟨segs, rfl, -⟩ := h
  refine ⟨segs ++ [sent], ?_, List.mem_append_right _ List.mem_cons_self⟩
  rw [List.flatMap_append, List.flatMap_singleton]

/-- A segment takes more than no bytes. -/
theorem not_holds_nil : ¬ Holds sent [] := by
  rintro ⟨segs, hnil, hmem⟩
  have hbytes := List.flatMap_eq_nil_iff.mp hnil.symm sent hmem
  have hlength := IKCPSEG.length_bytes sent
  rw [hbytes, List.length_nil] at hlength
  omega

namespace IKCPCB.Output

/-- The segment was written, and passed on or not. -/
def Has (out : Output) (sent : IKCPSEG) : Prop :=
  Holds sent out.buffer ∨ ∃ d ∈ out.datagrams, Holds sent d

theorem Has.pass (h : out.Has sent) : ∃ d ∈ out.pass.datagrams, Holds sent d := by
  unfold Output.pass
  split
  · rename_i hnil
    rcases h with hbuffer | hpassed
    · rw [hnil] at hbuffer
      exact absurd hbuffer not_holds_nil
    · exact hpassed
  · rcases h with hbuffer | ⟨d, hd, hholds⟩
    · exact ⟨_, List.mem_append_right _ List.mem_cons_self, hbuffer⟩
    · exact ⟨d, List.mem_append_left _ hd, hholds⟩

theorem Has.writeSeg (h : out.Has sent) (hwrite : kcp.writeSeg out need seg = some out') :
    out'.Has sent := by
  obtain ⟨before, hroom, rfl⟩ := writeSeg_spec hwrite
  have hbefore : before.Has sent := by
    rcases makeRoom_cases hroom with rfl | rfl
    · exact .inr h.pass
    · exact h
  exact hbefore.imp_left fun hbuffer => hbuffer.append seg

theorem Of.has (h : out.Of P) (hwrite : kcp.writeSeg out need sent = some out') :
    out'.Has sent := by
  obtain ⟨before, hroom, rfl⟩ := writeSeg_spec hwrite
  exact .inl ((h.makeRoom hroom).1.holds sent)

end IKCPCB.Output

/-! ## Flushing -/

/-- Everything in `snd_buf` that is due goes out, with the time of the flush. -/
theorem flushData_sends (segs : List IKCPSEG) :
    ∀ {s s' : Sent} {segs' : List IKCPSEG}, kcp.flushData wnd segs s = some (segs', s') →
      s.out.Of (fun _ => True) → (∀ sent, s.out.Has sent → s'.out.Has sent) ∧
        ∀ seg ∈ segs, kcp.reason seg ≠ none →
          ∃ sent : IKCPSEG, sent.key = seg.key ∧ sent.ts = kcp.current ∧ s'.out.Has sent := by
  induction segs with
  | nil =>
      intro s s' segs' h _
      cases h
      exact ⟨fun _ hsent => hsent, fun _ hseg => absurd hseg List.not_mem_nil⟩
  | cons seg segs ih =>
      intro s s' segs' h hof
      obtain ⟨⟨sent, t⟩, hsent, h⟩ := Option.bind_eq_some_iff.mp h
      obtain ⟨⟨rest, u⟩, hrest, h⟩ := Option.bind_eq_some_iff.mp h
      cases h
      rcases flushSegment_cases hsent with ⟨hnone, rfl, rfl⟩ | ⟨why, -, hsegment, hwrite⟩
      · obtain ⟨hkept, hall⟩ := ih hrest hof
        refine ⟨hkept, fun other hother hdue => ?_⟩
        rcases List.mem_cons.mp hother with rfl | hother
        · exact absurd hnone hdue
        · exact hall other hother hdue
      · obtain ⟨hkept, hall⟩ := ih hrest (hof.writeSeg trivial hwrite)
        refine ⟨fun other hother => hkept other (hother.writeSeg hwrite),
          fun other hother hdue => ?_⟩
        rcases List.mem_cons.mp hother with rfl | hother
        · refine ⟨sent, ?_, by rw [hsegment], hkept sent (hof.has hwrite)⟩
          rw [hsegment]
          exact schedule_key kcp other why
        · exact hall other hother hdue

/-- What is moved to `snd_buf` was not sent yet. -/
theorem moveToBuf_new (cwnd wnd : UInt32) (queue : List IKCPSEG) : ∀ {kcp : IKCPCB},
    ∀ seg ∈ (moveToBuf cwnd wnd kcp queue).snd_buf, seg ∈ kcp.snd_buf ∨ seg.xmit = 0 := by
  induction queue with
  | nil => exact fun {kcp} seg hseg => .inl hseg
  | cons newseg queue ih =>
      intro kcp seg hseg
      rw [moveToBuf] at hseg
      split at hseg
      · rcases ih seg hseg with hold | hnew
        · rcases List.mem_append.mp hold with hold | hmoved
          · exact .inl hold
          · rw [List.mem_singleton.mp hmoved]
            exact .inr rfl
        · exact .inr hnew
      · exact .inl hseg

/-- The times and the settings tell why a segment is sent. -/
theorem reason_congr (hpace : kcp'.pace = kcp.pace) (hsettings : kcp'.settings = kcp.settings)
    (seg : IKCPSEG) : kcp'.reason seg = kcp.reason seg := by
  have hcurrent : kcp'.current = kcp.current := congrArg Pace.current hpace
  have hresend : kcp'.fastresend = kcp.fastresend := congrArg Settings.fastresend hsettings
  have hlimit : kcp'.fastlimit = kcp.fastlimit := congrArg Settings.fastlimit hsettings
  unfold reason resent
  rw [hcurrent, hresend, hlimit]

/-- **A flush leaves nothing out.** A segment that is in `snd_buf` behind it was there before and
was not due, or it is in one of the datagrams, with the time of the flush. -/
theorem flush_sends (hupdated : kcp.updated ≠ 0) (h : kcp.ikcp_flush = some (kcp', datagrams)) :
    ∀ seg ∈ kcp'.snd_buf, (∃ old ∈ kcp.snd_buf, old.key = seg.key ∧ kcp.reason old = none) ∨
      ∃ d ∈ datagrams, ∃ sent : IKCPSEG, sent.key = seg.key ∧ sent.ts = kcp.current ∧
        Holds sent d := by
  unfold ikcp_flush at h
  rw [if_neg hupdated] at h
  obtain ⟨⟨head, wnd, out⟩, hhead, htail⟩ := Option.bind_eq_some_iff.mp h
  have htail : flushTail (moveToBuf head.window wnd head head.snd_queue) head.window wnd out =
      some (kcp', datagrams) := htail
  obtain ⟨hsettings, hsending, -, hof⟩ := flushHead_spec hhead
  have hpace := flushHead_pace hhead
  obtain ⟨hmoved, -⟩ := moveToBuf_keeps head.window wnd head.snd_queue head
  have hmoved' := moveToBuf_pace head.window wnd head.snd_queue head
  have hnew : ∀ seg ∈ (moveToBuf head.window wnd head head.snd_queue).snd_buf,
      seg ∈ head.snd_buf ∨ seg.xmit = 0 := moveToBuf_new head.window wnd head.snd_queue
  rw [show head.snd_buf = kcp.snd_buf from congrArg Sending.snd_buf hsending] at hnew
  generalize moveToBuf head.window wnd head head.snd_queue = k at *
  have hreason := reason_congr (hmoved'.trans hpace) (hmoved.trans hsettings)
  have hcurrent : k.current = kcp.current := congrArg Pace.current (hmoved'.trans hpace)
  obtain ⟨segs, s, hdata, hkcp, rfl⟩ := flushTail_cases htail
  obtain ⟨_, _, _, hshrunk⟩ := shrinkWindow_spec
    { k with snd_buf := segs, xmit := s.xmit, state := s.state } head.window s.change s.lost
  obtain ⟨hkeys, -⟩ := flushData_spec _ hdata
  obtain ⟨-, hsent⟩ := flushData_sends _ hdata
    (hof (fun _ => True) ⟨fun _ _ => trivial, fun _ _ _ _ => trivial⟩)
  have hbuf : kcp'.snd_buf = segs := by rw [← hkcp, hshrunk]
  intro seg hseg
  rw [hbuf] at hseg
  obtain ⟨moved, hmem, hkey⟩ := exists_key hkeys hseg
  by_cases hdue : k.reason moved = none
  · rcases hnew moved hmem with hold | hzero
    · exact .inl ⟨moved, hold, hkey, by rw [← hreason]; exact hdue⟩
    · rw [reason, if_pos hzero] at hdue
      cases hdue
  · obtain ⟨sent, hsame, htime, hhas⟩ := hsent moved hmem hdue
    obtain ⟨d, hd, hholds⟩ := hhas.pass
    exact .inr ⟨d, hd, sent, hsame.trans hkey, htime.trans hcurrent, hholds⟩

theorem flush_sends_one : ∃ (kcp kcp' : IKCPCB) (datagrams : List (List Byte)),
    kcp.ikcp_flush = some (kcp', datagrams) ∧ kcp'.snd_buf.length = 1 ∧
      ∀ seg ∈ kcp'.snd_buf, ∃ d ∈ datagrams, ∃ sent : IKCPSEG, sent.key = seg.key ∧
        sent.ts = 5 ∧ Holds sent d := by
  have hflush : (ikcp_flush { ikcp_create 7 with
      updated := 1, cwnd := 1, current := 5, snd_queue := [{ data := [1] }], nsnd_que := 1 }).map
        (fun result => result.1.snd_buf.length) = some 1 := by
    decide
  obtain ⟨⟨kcp', datagrams⟩, hflush, hlength⟩ := Option.map_eq_some_iff.mp hflush
  refine ⟨_, kcp', datagrams, hflush, hlength, fun seg hseg => ?_⟩
  rcases flush_sends (show (1 : UInt32) ≠ 0 by decide) hflush seg hseg with ⟨old, hold, -⟩ | hsent
  · exact absurd hold List.not_mem_nil
  · exact hsent

/-! ## Runs -/

variable {e e' : Endpoint} {conv : UInt32} {W : Nat}

/-- Every segment in `snd_buf` was in a datagram. -/
def AllSent (e : Endpoint) : Prop :=
  ∀ seg ∈ e.kcp.snd_buf, ∃ d ∈ e.wire, ∃ sent : IKCPSEG, sent.key = seg.key ∧ Holds sent d

namespace AllSent

theorem keep (h : AllSent e)
    (hkeys : (e'.kcp.snd_buf.map IKCPSEG.key).Sublist (e.kcp.snd_buf.map IKCPSEG.key))
    (hwire : e.wire ⊆ e'.wire) : AllSent e' := by
  intro seg hseg
  obtain ⟨old, hold, hkey⟩ := List.mem_map.mp (hkeys.subset (List.mem_map_of_mem hseg))
  obtain ⟨d, hd, sent, hsame, hholds⟩ := h old hold
  exact ⟨d, hwire hd, sent, hsame.trans hkey, hholds⟩

/-- The segments are the same. -/
theorem same (h : AllSent e) (hsending : e'.kcp.sending = e.kcp.sending)
    (hwire : e.wire ⊆ e'.wire) : AllSent e' := by
  have hbuf : e'.kcp.snd_buf = e.kcp.snd_buf := congrArg Sending.snd_buf hsending
  exact h.keep (by rw [hbuf]) hwire

/-- A flush, perhaps behind a setting of the clock. -/
theorem flush (h : AllSent e) (hbuf : kcp.snd_buf = e.kcp.snd_buf)
    (hflush : kcp.ikcp_flush = some (kcp', datagrams)) :
    AllSent { e with kcp := kcp', wire := e.wire ++ datagrams } := by
  by_cases hupdated : kcp.updated = 0
  · rw [ikcp_flush, if_pos hupdated] at hflush
    cases hflush
    exact h.keep (by rw [hbuf]) (List.subset_append_left _ _)
  · intro seg hseg
    rcases flush_sends hupdated hflush seg hseg with ⟨old, hold, hkey, -⟩ | hsent
    · obtain ⟨d, hd, sent, hsame, hholds⟩ := h old (hbuf ▸ hold)
      exact ⟨d, List.mem_append_left _ hd, sent, hsame.trans hkey, hholds⟩
    · obtain ⟨d, hd, sent, hkey, -, hholds⟩ := hsent
      exact ⟨d, List.mem_append_right _ hd, sent, hkey, hholds⟩

theorem call {received : List (List Byte)} {c : Call} (h : AllSent e)
    (hcall : e.call received c = some e') : AllSent e' := by
  cases c with
  | send buffer =>
      obtain ⟨⟨kcp, ret⟩, hsend, heq⟩ := Option.bind_eq_some_iff.mp hcall
      cases heq
      have hbuf := send_keeps IKCPCB.snd_buf (fun _ _ _ => rfl) hsend
      exact h.keep (by rw [hbuf]) (List.Subset.refl _)
  | recv len =>
      obtain ⟨⟨kcp, ret, bytes⟩, hrecv, heq⟩ := Option.bind_eq_some_iff.mp hcall
      cases heq
      exact h.same (recv_keeps hrecv).2.1 (List.Subset.refl _)
  | update current =>
      obtain ⟨⟨kcp, datagrams⟩, hupdate, heq⟩ := Option.bind_eq_some_iff.mp hcall
      cases heq
      obtain ⟨updated, ts_flush, -, hcases⟩ := update_cases hupdate
      rcases hcases with ⟨rfl, rfl⟩ | hflush
      · exact h.same rfl (List.subset_append_left _ _)
      · exact h.flush (by rfl) hflush
  | flush =>
      obtain ⟨⟨kcp, datagrams⟩, hflush, heq⟩ := Option.bind_eq_some_iff.mp hcall
      cases heq
      exact h.flush rfl hflush
  | input picks =>
      obtain ⟨⟨kcp, ret⟩, hinput, heq⟩ := Option.bind_eq_some_iff.mp hcall
      cases heq
      exact h.keep (input_sending hinput).2.2 (List.Subset.refl _)
  | setmtu mtu =>
      cases hcall
      exact h.same (setmtu_keeps e.kcp mtu).1 (List.Subset.refl _)
  | interval ms =>
      cases hcall
      exact h.same rfl (List.Subset.refl _)
  | nodelay on ms resend nc =>
      cases hcall
      exact h.same (nodelay_same e.kcp on ms resend nc).sending (List.Subset.refl _)
  | wndsize sndwnd rcvwnd =>
      cases hcall
      exact h.same (wndsize_same e.kcp sndwnd rcvwnd).sending (List.Subset.refl _)
  | stream on =>
      cases hcall
      exact h.same rfl (List.Subset.refl _)

end AllSent

/-- **No segment waits unsent**, whatever comes: what has a number and is not settled was passed to
the output callback in some datagram. -/
theorem numbered_sent (h : (exposed conv W).Reachable e) :
    ∀ seg ∈ e.kcp.snd_buf, ∃ d ∈ e.wire, ∃ sent : IKCPSEG, sent.key = seg.key ∧ Holds sent d := by
  have hall : (exposed conv W).Invariant AllSent := by
    apply TSys.Inductive.invariant
    constructor
    · rintro e rfl
      exact fun _ hseg => absurd hseg List.not_mem_nil
    · rintro e c e' h ⟨-, -, hcall⟩
      exact h.call hcall
  exact hall e h

theorem numbered_sent_three : ∃ e, (exposed 7 128).Reachable e ∧ e.kcp.snd_buf.length = 1 ∧
    ∀ seg ∈ e.kcp.snd_buf, ∃ d ∈ e.wire, ∃ sent : IKCPSEG, sent.key = seg.key ∧ Holds sent d := by
  obtain ⟨a, b, e, hsend, hupdate, hflush, -, hlength⟩ := three_sent
  have hfirst : (exposed 7 128).step { kcp := ikcp_create 7 } ([], .send [1, 2, 3]) a :=
    ⟨show 3 < 2 ^ 31 by decide, trivial, hsend⟩
  have hsecond : (exposed 7 128).step a ([], .update 100) b := ⟨trivial, trivial, hupdate⟩
  have hthird : (exposed 7 128).step b ([], .flush) e := ⟨trivial, trivial, hflush⟩
  have hreach := (((TSys.Reachable.init rfl).step hfirst).step hsecond).step hthird
  exact ⟨e, hreach, hlength, numbered_sent hreach⟩

end LearnSpace.Kcp
