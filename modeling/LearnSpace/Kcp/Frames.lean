import LearnSpace.Kcp.Flush
import LearnSpace.Kcp.Input

/-!
# What the functions leave alone

The fields of the control block in three groups: those that only a setting changes (`settings`),
those of the sending half (`sending`), and those of the receiving half (`receiving`). For each
function there is what it does to the fields it is about, and that the groups it is not about
are the same.
-/

namespace LearnSpace.Kcp

open Keel

/-- The fields that no traffic changes. -/
structure Settings where
  conv : UInt32
  mtu : UInt32
  mss : UInt32
  rx_minrto : Int
  snd_wnd : UInt32
  rcv_wnd : UInt32
  interval : UInt32
  nodelay : UInt32
  dead_link : UInt32
  fastresend : Int
  fastlimit : Int
  nocwnd : Int
  stream : Int
  bufferSize : UInt32

/-- The segments to be sent, and their numbers. -/
structure Sending where
  snd_una : UInt32
  snd_nxt : UInt32
  nsnd_buf : UInt32
  nsnd_que : UInt32
  snd_queue : List IKCPSEG
  snd_buf : List IKCPSEG

/-- The segments that came, and the acknowledgments that are to go out for them. -/
structure Receiving where
  rcv_nxt : UInt32
  nrcv_buf : UInt32
  nrcv_que : UInt32
  rcv_queue : List IKCPSEG
  rcv_buf : List IKCPSEG
  acklist : List (UInt32 × UInt32)

namespace IKCPCB

def settings (kcp : IKCPCB) : Settings where
  conv := kcp.conv
  mtu := kcp.mtu
  mss := kcp.mss
  rx_minrto := kcp.rx_minrto
  snd_wnd := kcp.snd_wnd
  rcv_wnd := kcp.rcv_wnd
  interval := kcp.interval
  nodelay := kcp.nodelay
  dead_link := kcp.dead_link
  fastresend := kcp.fastresend
  fastlimit := kcp.fastlimit
  nocwnd := kcp.nocwnd
  stream := kcp.stream
  bufferSize := kcp.bufferSize

def sending (kcp : IKCPCB) : Sending where
  snd_una := kcp.snd_una
  snd_nxt := kcp.snd_nxt
  nsnd_buf := kcp.nsnd_buf
  nsnd_que := kcp.nsnd_que
  snd_queue := kcp.snd_queue
  snd_buf := kcp.snd_buf

def receiving (kcp : IKCPCB) : Receiving where
  rcv_nxt := kcp.rcv_nxt
  nrcv_buf := kcp.nrcv_buf
  nrcv_que := kcp.nrcv_que
  rcv_queue := kcp.rcv_queue
  rcv_buf := kcp.rcv_buf
  acklist := kcp.acklist

variable {kcp kcp' : IKCPCB} {sn ts una rto : UInt32} {rtt : Int} {seg : IKCPSEG}

/-! ## Settings -/

/-- Settings that neither half depends on. -/
structure SameTransfer (kcp kcp' : IKCPCB) : Prop where
  sending : kcp'.sending = kcp.sending
  receiving : kcp'.receiving = kcp.receiving
  conv : kcp'.conv = kcp.conv
  mss : kcp'.mss = kcp.mss
  stream : kcp'.stream = kcp.stream

theorem SameTransfer.trans {a b c : IKCPCB} (h : SameTransfer a b) (h' : SameTransfer b c) :
    SameTransfer a c :=
  ⟨h'.1.trans h.1, h'.2.trans h.2, h'.3.trans h.3, h'.4.trans h.4, h'.5.trans h.5⟩

theorem SameTransfer.ite {p : Prop} [Decidable p] {a b : IKCPCB} (h : SameTransfer a b) :
    SameTransfer a (if p then b else a) := by
  split
  · exact h
  · exact ⟨rfl, rfl, rfl, rfl, rfl⟩

theorem interval_same (kcp : IKCPCB) (ms : Int) : SameTransfer kcp (kcp.ikcp_interval ms) :=
  ⟨rfl, rfl, rfl, rfl, rfl⟩

theorem nodelay_same (kcp : IKCPCB) (on ms resend nc : Int) :
    SameTransfer kcp (kcp.ikcp_nodelay on ms resend nc) := by
  refine .trans (.trans (.trans (.ite ?_) (.ite ?_)) (.ite ?_)) (.ite ?_)
  · exact ⟨rfl, rfl, rfl, rfl, rfl⟩
  · exact interval_same _ ms
  · exact ⟨rfl, rfl, rfl, rfl, rfl⟩
  · exact ⟨rfl, rfl, rfl, rfl, rfl⟩

theorem nodelay_windows (kcp : IKCPCB) (on ms resend nc : Int) :
    (kcp.ikcp_nodelay on ms resend nc).snd_wnd = kcp.snd_wnd ∧
      (kcp.ikcp_nodelay on ms resend nc).rcv_wnd = kcp.rcv_wnd := by
  unfold ikcp_nodelay
  extract_lets delayed timed resent
  have hdelayed : delayed.snd_wnd = kcp.snd_wnd ∧ delayed.rcv_wnd = kcp.rcv_wnd := by
    unfold delayed
    split <;> exact ⟨rfl, rfl⟩
  have htimed : timed.snd_wnd = delayed.snd_wnd ∧ timed.rcv_wnd = delayed.rcv_wnd := by
    unfold timed
    split <;> exact ⟨rfl, rfl⟩
  have hresent : resent.snd_wnd = timed.snd_wnd ∧ resent.rcv_wnd = timed.rcv_wnd := by
    unfold resent
    split <;> exact ⟨rfl, rfl⟩
  split
  all_goals exact ⟨hresent.1.trans (htimed.1.trans hdelayed.1),
    hresent.2.trans (htimed.2.trans hdelayed.2)⟩

theorem wndsize_same (kcp : IKCPCB) (sndwnd rcvwnd : Int) :
    SameTransfer kcp (kcp.ikcp_wndsize sndwnd rcvwnd) := by
  refine .trans (.ite ?_) (.ite ?_)
  · exact ⟨rfl, rfl, rfl, rfl, rfl⟩
  · exact ⟨rfl, rfl, rfl, rfl, rfl⟩

/-- `ikcp_setmtu` does not touch what is queued. -/
theorem setmtu_keeps (kcp : IKCPCB) (mtu : Int) :
    (kcp.ikcp_setmtu mtu).1.sending = kcp.sending ∧
      (kcp.ikcp_setmtu mtu).1.receiving = kcp.receiving ∧
      (kcp.ikcp_setmtu mtu).1.conv = kcp.conv ∧ (kcp.ikcp_setmtu mtu).1.stream = kcp.stream ∧
      (kcp.ikcp_setmtu mtu).1.snd_wnd = kcp.snd_wnd ∧
      (kcp.ikcp_setmtu mtu).1.rcv_wnd = kcp.rcv_wnd := by
  unfold ikcp_setmtu
  split
  · exact ⟨rfl, rfl, rfl, rfl, rfl, rfl⟩
  · exact ⟨rfl, rfl, rfl, rfl, rfl, rfl⟩

/-! ## Input -/

/-- A measurement changes the estimate of the round trip, and the timeout stays in its bounds. -/
theorem update_ack_spec (h : kcp.ikcp_update_ack rtt = some kcp') :
    ∃ (rx_srtt rx_rttval : Int) (rto : UInt32), kcp' = { kcp with
      rx_srtt := rx_srtt
      rx_rttval := rx_rttval
      rx_rto := int (ibound (UInt32.ofInt kcp.rx_minrto) rto IKCP_RTO_MAX) } := by
  obtain ⟨⟨rx_srtt, rx_rttval⟩, -, h⟩ := Option.bind_eq_some_iff.mp h
  obtain ⟨fourfold, -, h⟩ := Option.bind_eq_some_iff.mp h
  exact ⟨rx_srtt, rx_rttval, _, (Option.some.inj h).symm⟩

theorem shrink_buf_eq (kcp : IKCPCB) : kcp.ikcp_shrink_buf =
    { kcp with snd_una := (kcp.snd_buf.head?.map IKCPSEG.sn).getD kcp.snd_nxt } := by
  unfold ikcp_shrink_buf
  cases kcp.snd_buf <;> rfl

theorem shrink_buf_keeps (kcp : IKCPCB) :
    kcp.ikcp_shrink_buf.settings = kcp.settings ∧
      kcp.ikcp_shrink_buf.receiving = kcp.receiving ∧
      kcp.ikcp_shrink_buf.snd_queue = kcp.snd_queue := by
  rw [shrink_buf_eq]
  exact ⟨rfl, rfl, rfl⟩

theorem parse_ack_spec (kcp : IKCPCB) (sn : UInt32) :
    kcp.ikcp_parse_ack sn = kcp ∨
      ∃ segs, takeOut sn kcp.snd_buf = some segs ∧
        kcp.ikcp_parse_ack sn = { kcp with snd_buf := segs, nsnd_buf := kcp.nsnd_buf - 1 } := by
  unfold ikcp_parse_ack
  split
  · cases htake : takeOut sn kcp.snd_buf with
    | none => exact .inl rfl
    | some segs => exact .inr ⟨segs, rfl, rfl⟩
  · exact .inl rfl

theorem ack_push_spec (h : kcp.ikcp_ack_push sn ts = some kcp') :
    ∃ ackblock, kcp' = { kcp with acklist := kcp.acklist ++ [(sn, ts)], ackblock := ackblock } := by
  obtain ⟨ackblock, -, h⟩ := Option.bind_eq_some_iff.mp h
  exact ⟨ackblock, (Option.some.inj h).symm⟩

/-- `moveAvailable` changes five fields. -/
theorem moveAvailable_keeps {β : Type} (f : IKCPCB → β)
    (hf : ∀ (k : IKCPCB) (a b c : UInt32) (queue buf : List IKCPSEG),
      f { k with rcv_nxt := a, nrcv_buf := b, nrcv_que := c, rcv_queue := queue, rcv_buf := buf } =
        f k) (segs : List IKCPSEG) :
    ∀ kcp : IKCPCB, f (kcp.moveAvailable segs) = f kcp := by
  induction segs with
  | nil => exact fun kcp => hf kcp kcp.rcv_nxt kcp.nrcv_buf kcp.nrcv_que kcp.rcv_queue []
  | cons seg segs ih =>
      intro kcp
      rw [moveAvailable]
      split
      · rw [ih]
        exact hf kcp (kcp.rcv_nxt + 1) (kcp.nrcv_buf - 1) (kcp.nrcv_que + 1)
          (kcp.rcv_queue ++ [seg]) kcp.rcv_buf
      · exact hf kcp kcp.rcv_nxt kcp.nrcv_buf kcp.nrcv_que kcp.rcv_queue (seg :: segs)

/-- So does `ikcp_parse_data`. -/
theorem parse_data_keeps {β : Type} (f : IKCPCB → β)
    (hf : ∀ (k : IKCPCB) (a b c : UInt32) (queue buf : List IKCPSEG),
      f { k with rcv_nxt := a, nrcv_buf := b, nrcv_que := c, rcv_queue := queue, rcv_buf := buf } =
        f k) (kcp : IKCPCB) (seg : IKCPSEG) :
    f (kcp.ikcp_parse_data seg) = f kcp := by
  unfold ikcp_parse_data
  split
  · rfl
  · rw [moveAvailable_keeps f hf]
    unfold storeSeg
    split
    · exact hf kcp kcp.rcv_nxt _ kcp.nrcv_que kcp.rcv_queue _
    · rfl

theorem growWindow_spec (h : kcp.growWindow = some kcp') :
    ∃ cwnd incr, kcp' = { kcp with cwnd := cwnd, incr := incr } := by
  obtain ⟨grown, hgrown, h⟩ := Option.bind_eq_some_iff.mp h
  obtain ⟨cwnd, incr, rfl⟩ : ∃ cwnd incr, grown = { kcp with cwnd := cwnd, incr := incr } := by
    split at hgrown
    · exact ⟨_, _, (Option.some.inj hgrown).symm⟩
    · unfold growSlowly at hgrown
      dsimp only at hgrown
      by_cases hzero : (if kcp.incr < kcp.mss then kcp.mss else kcp.incr) = 0
      · rw [if_pos hzero] at hgrown
        cases hgrown
      · rw [if_neg hzero] at hgrown
        exact ⟨_, _, (Option.some.inj hgrown).symm⟩
  cases h
  split
  · exact ⟨_, _, rfl⟩
  · exact ⟨_, _, rfl⟩

/-- Behind the loop segments are passed over, and the congestion window grows. -/
theorem settle_spec {maxack : Option UInt32} (h : kcp.settle maxack una = some kcp') :
    ∃ cwnd incr, (kcp' = { kcp with cwnd := cwnd, incr := incr } ∨
      ∃ sn, kcp' =
        { kcp with snd_buf := passOver sn kcp.snd_buf, cwnd := cwnd, incr := incr }) := by
  have hpass : ∀ k : IKCPCB, (if itimediff k.snd_una una > 0 ∧ k.cwnd < k.rmt_wnd then k.growWindow
      else some k) = some kcp' → ∃ cwnd incr, kcp' = { k with cwnd := cwnd, incr := incr } := by
    intro k hk
    split at hk
    · exact growWindow_spec hk
    · cases hk
      exact ⟨_, _, rfl⟩
  cases maxack with
  | none =>
      obtain ⟨cwnd, incr, heq⟩ := hpass kcp h
      exact ⟨cwnd, incr, .inl heq⟩
  | some sn =>
      obtain ⟨cwnd, incr, heq⟩ := hpass (kcp.ikcp_parse_fastack sn) h
      refine ⟨cwnd, incr, ?_⟩
      by_cases hunsettled : kcp.Unsettled sn
      · have hpassed : kcp.ikcp_parse_fastack sn =
            { kcp with snd_buf := passOver sn kcp.snd_buf } := if_pos hunsettled
        exact .inr ⟨sn, by rw [heq, hpassed]⟩
      · have hpassed : kcp.ikcp_parse_fastack sn = kcp := if_neg hunsettled
        exact .inl (by rw [heq, hpassed])

end IKCPCB

namespace Input

open IKCPCB

variable {s s' : Input} {seg : IKCPSEG}

/-- What the header of a segment settles is of the sending half. -/
theorem header_keeps (s : Input) (seg : IKCPSEG) :
    (s.header seg).kcp.settings = s.kcp.settings ∧
      (s.header seg).kcp.receiving = s.kcp.receiving ∧
      (s.header seg).kcp.snd_queue = s.kcp.snd_queue :=
  shrink_buf_keeps (({ s.kcp with rmt_wnd := seg.wnd } : IKCPCB).ikcp_parse_una seg.una)

theorem parse_ack_keeps (kcp : IKCPCB) (sn : UInt32) :
    ((kcp.ikcp_parse_ack sn).ikcp_shrink_buf).settings = kcp.settings ∧
      ((kcp.ikcp_parse_ack sn).ikcp_shrink_buf).receiving = kcp.receiving ∧
      ((kcp.ikcp_parse_ack sn).ikcp_shrink_buf).snd_queue = kcp.snd_queue := by
  have hkeeps := shrink_buf_keeps (kcp.ikcp_parse_ack sn)
  rcases parse_ack_spec kcp sn with heq | ⟨segs, -, heq⟩
  · rw [heq] at hkeeps ⊢
    exact hkeeps
  · rw [heq] at hkeeps ⊢
    exact hkeeps

/-- An acknowledgment is a measurement of the round trip, and settles its number. -/
theorem ack_spec (h : s.ack seg = some s') :
    ∃ measured : IKCPCB, measured.settings = s.kcp.settings ∧ measured.sending = s.kcp.sending ∧
      measured.receiving = s.kcp.receiving ∧
      s'.kcp = (measured.ikcp_parse_ack seg.sn).ikcp_shrink_buf := by
  obtain ⟨measured, hupdate, h⟩ := Option.bind_eq_some_iff.mp h
  refine ⟨measured, ?_⟩
  cases h
  split at hupdate
  · obtain ⟨rx_srtt, rx_rttval, rto, rfl⟩ := update_ack_spec hupdate
    exact ⟨rfl, rfl, rfl, rfl⟩
  · cases hupdate
    exact ⟨rfl, rfl, rfl, rfl⟩

/-- Data is of the receiving half. -/
theorem push_keeps (h : s.push seg = some s') :
    s'.kcp.settings = s.kcp.settings ∧ s'.kcp.sending = s.kcp.sending := by
  unfold push at h
  split at h
  · obtain ⟨pushed, hack, h⟩ := Option.bind_eq_some_iff.mp h
    obtain ⟨ackblock, rfl⟩ := ack_push_spec hack
    cases h
    dsimp only
    split
    · exact ⟨parse_data_keeps settings (fun _ _ _ _ _ _ => rfl) _ _,
        parse_data_keeps sending (fun _ _ _ _ _ _ => rfl) _ _⟩
    · exact ⟨rfl, rfl⟩
  · cases h
    exact ⟨rfl, rfl⟩

/-- A segment that comes: its header, and then one of three things. -/
theorem segment_cases (h : s.segment seg = some s') :
    seg.cmd = IKCP_CMD_ACK ∧ (s.header seg).ack seg = some s' ∨
      seg.cmd = IKCP_CMD_PUSH ∧ (s.header seg).push seg = some s' ∨
      seg.cmd ≠ IKCP_CMD_ACK ∧ seg.cmd ≠ IKCP_CMD_PUSH ∧
        ∃ probe, s' = { s.header seg with kcp := { (s.header seg).kcp with probe := probe } } := by
  unfold segment at h
  dsimp only at h
  split at h
  case isTrue hack => exact .inl ⟨hack, h⟩
  case isFalse hack =>
    split at h
    case isTrue hpush => exact .inr (.inl ⟨hpush, h⟩)
    case isFalse hpush =>
      refine .inr (.inr ⟨hack, hpush, ?_⟩)
      split at h
      · exact ⟨_, (Option.some.inj h).symm⟩
      · exact ⟨_, (Option.some.inj h).symm⟩

theorem segment_settings (h : s.segment seg = some s') :
    s'.kcp.settings = s.kcp.settings := by
  have hheader := (header_keeps s seg).1
  rcases segment_cases h with ⟨-, hack⟩ | ⟨-, hpush⟩ | ⟨-, -, probe, rfl⟩
  · obtain ⟨measured, hsettings, -, -, heq⟩ := ack_spec hack
    rw [heq, (parse_ack_keeps _ _).1, hsettings, hheader]
  · rw [(push_keeps hpush).1, hheader]
  · exact hheader

/-- An iteration of the loop of `ikcp_input` handles a segment, or leaves the loop with everything
as it is. -/
theorem turn_cases {data : List Byte} {next : (Input × List Byte) ⊕ (Input × Int)}
    (h : turn (s, data) = some next) :
    (∃ ret, next = .inr (s, ret)) ∨
      ∃ (seg : IKCPSEG) (s' : Input) (rest : List Byte), next = .inl (s', rest) ∧
        seg.conv = s.kcp.conv ∧ Supported seg.cmd ∧ s.segment seg = some s' := by
  rw [turn] at h
  split at h
  · cases h
    exact .inl ⟨_, rfl⟩
  · obtain ⟨⟨seg, len, body⟩, hdecode, h⟩ := Option.bind_eq_some_iff.mp h
    dsimp only at h
    split at h
    · cases h
      exact .inl ⟨_, rfl⟩
    · split at h
      · cases h
        exact .inl ⟨_, rfl⟩
      · split at h
        · cases h
          exact .inl ⟨_, rfl⟩
        · rename_i hconv _ hcmd
          obtain ⟨t, hseg, h⟩ := Option.bind_eq_some_iff.mp h
          cases h
          exact .inr ⟨{ seg with data := body.take len.toNat }, t, _, rfl, not_not.mp hconv,
            not_not.mp hcmd, hseg⟩

end Input

/-- **A property that every segment keeps**, and what is done behind the loop, is one that
`ikcp_input` keeps, whatever bytes come. -/
theorem IKCPCB.input_keeps {P : IKCPCB → Prop} {kcp kcp' : IKCPCB} {data : List Byte} {ret : Int}
    (hsegment : ∀ (s s' : Input) (seg : IKCPSEG), P s.kcp → Input.Supported seg.cmd →
      s.segment seg = some s' → P s'.kcp)
    (hsettle : ∀ (k k' : IKCPCB) maxack una, P k → k.settle maxack una = some k' → P k')
    (h : P kcp) (hinput : kcp.ikcp_input data = some (kcp', ret)) : P kcp' := by
  unfold ikcp_input at hinput
  split at hinput
  · cases hinput
    exact h
  · obtain ⟨⟨s, left⟩, hloop, hinput⟩ := Option.bind_eq_some_iff.mp hinput
    have hkept : P s.kcp := by
      refine Fuel.loop_invariant (P := fun t => P t.1.kcp) (Q := fun a => P a.1.kcp) ?_ ?_ h hloop
      · rintro ⟨t, before⟩ ⟨t', after⟩ ht hturn
        rcases Input.turn_cases hturn with ⟨ret, hnext⟩ | ⟨seg, next, rest, hnext, -, hcmd, hseg⟩
        · cases hnext
        · cases hnext
          exact hsegment t t' seg ht hcmd hseg
      · rintro ⟨t, before⟩ ⟨t', ret⟩ ht hturn
        rcases Input.turn_cases hturn with ⟨ret, hnext⟩ | ⟨seg, next, rest, hnext, -⟩
        · cases hnext
          exact ht
        · cases hnext
    dsimp only at hinput
    split at hinput
    · cases hinput
      exact hkept
    · obtain ⟨settled, hsettled, hinput⟩ := Option.bind_eq_some_iff.mp hinput
      cases hinput
      exact hsettle _ _ _ _ hkept hsettled

theorem IKCPCB.input_settings {kcp kcp' : IKCPCB} {data : List Byte} {ret : Int}
    (hinput : kcp.ikcp_input data = some (kcp', ret)) : kcp'.settings = kcp.settings := by
  refine input_keeps (P := fun k => k.settings = kcp.settings) ?_ ?_ rfl hinput
  · intro s s' seg hs _ hseg
    rw [Input.segment_settings hseg, hs]
  · intro k k' maxack una hk hsettle
    obtain ⟨cwnd, incr, rfl | ⟨sn, rfl⟩⟩ := settle_spec hsettle
    · exact hk
    · exact hk

end LearnSpace.Kcp
