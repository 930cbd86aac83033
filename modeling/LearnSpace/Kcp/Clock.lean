import LearnSpace.Kcp.Bounds

/-!
# Times

What a control block does when, whatever comes. The timeout, the interval and the time of the next
flush stay in their bounds (`paced`). Until the time that `ikcp_check` gives nothing is due, neither
a flush nor a segment (`check_waits`).
-/

namespace LearnSpace.Kcp

open Keel Keel.Serial

/-- The fields that tell the time of the next flush and of the next timeout. -/
structure Pace where
  rx_minrto : Int
  rx_rto : Int
  interval : UInt32
  updated : UInt32
  current : UInt32
  ts_flush : UInt32

namespace IKCPCB

def pace (kcp : IKCPCB) : Pace where
  rx_minrto := kcp.rx_minrto
  rx_rto := kcp.rx_rto
  interval := kcp.interval
  updated := kcp.updated
  current := kcp.current
  ts_flush := kcp.ts_flush

variable {kcp kcp' : IKCPCB} {seg : IKCPSEG} {current d : UInt32} {datagrams : List (List Byte)}

/-! ## Differences of times -/

theorem itimediff_swap {a b : UInt32} (h : -2 ^ 31 < itimediff a b) :
    itimediff b a = -itimediff a b := by
  have ha := a.toNat_lt
  have hb := b.toNat_lt
  have hab : itimediff a b = diff a b := rfl
  have hba : itimediff b a = diff b a := rfl
  rw [hab, diff_eq_ite, UInt32.toNat_sub] at h ⊢
  rw [hba, diff_eq_ite, UInt32.toNat_sub]
  split at h <;> split <;> omega

/-- A time `d` later, compared with one that is not reached yet. -/
theorem itimediff_add {t : UInt32} (ht : 0 ≤ itimediff t current) (hd : d.toNat < 2 ^ 31) :
    itimediff (current + d) t = d.toNat - itimediff t current := by
  have hahead : ahead current t < 2 ^ 31 := ahead_of_diff_nonneg ht
  have hlater : ahead current (current + d) = d.toNat := by
    rw [ahead, UInt32.add_comm, UInt32.add_sub_cancel]
  have hself : ahead current current < 2 ^ 31 := by
    rw [ahead_self]
    decide
  have htime : itimediff t current = ahead current t := by
    rw [show itimediff t current = diff t current from rfl, diff_eq_ahead hahead hself, ahead_self,
      Int.natCast_zero, Int.sub_zero]
  have hdiff : itimediff (current + d) t = (ahead current (current + d) : Int) - ahead current t :=
    diff_eq_ahead (by omega) hahead
  rw [hdiff, hlater, htime]

/-! ## What does not change them -/

theorem moveToBuf_pace (cwnd wnd : UInt32) (queue : List IKCPSEG) : ∀ kcp : IKCPCB,
    (moveToBuf cwnd wnd kcp queue).pace = kcp.pace := by
  induction queue with
  | nil => exact fun _ => rfl
  | cons seg queue ih =>
      intro kcp
      rw [moveToBuf]
      split
      · exact ih _
      · rfl

theorem flushHead_pace {wnd : UInt32} {out : Output} (h : kcp.flushHead = some (kcp', wnd, out)) :
    kcp'.pace = kcp.pace := by
  obtain ⟨⟨seg, acked⟩, -, h⟩ := Option.bind_eq_some_iff.mp h
  obtain ⟨asked, -, h⟩ := Option.bind_eq_some_iff.mp h
  obtain ⟨told, -, h⟩ := Option.bind_eq_some_iff.mp h
  obtain ⟨_, _, _, hprobed⟩ := probeWindow_spec { kcp with acklist := [] }
  cases h
  rw [hprobed]
  rfl

theorem flush_pace (h : kcp.ikcp_flush = some (kcp', datagrams)) : kcp'.pace = kcp.pace := by
  unfold ikcp_flush at h
  split at h
  · cases h
    rfl
  · obtain ⟨⟨head, wnd, out⟩, hhead, htail⟩ := Option.bind_eq_some_iff.mp h
    obtain ⟨segs, s, -, hkcp, -⟩ := flushTail_cases htail
    obtain ⟨_, _, _, hshrunk⟩ := shrinkWindow_spec
      { moveToBuf head.window wnd head head.snd_queue with
        snd_buf := segs, xmit := s.xmit, state := s.state } head.window s.change s.lost
    rw [← hkcp, hshrunk]
    exact (moveToBuf_pace head.window wnd head.snd_queue head).trans (flushHead_pace hhead)

theorem send_pace {buffer : List Byte} {len ret : Int}
    (h : kcp.ikcp_send buffer len = some (kcp', ret)) : kcp'.pace = kcp.pace :=
  send_keeps pace (fun _ _ _ => rfl) h

theorem recv_pace {bytes : List Byte} {len ret : Int}
    (h : kcp.ikcp_recv len = some (kcp', ret, bytes)) : kcp'.pace = kcp.pace := by
  rcases recv_spec h with ⟨-, rfl, -⟩ | ⟨-, -, -, -, -, probe, rfl⟩
  · rfl
  · have hdrop : (kcp.dropMessage (len < 0)).pace = kcp.pace := by
      unfold dropMessage
      split <;> rfl
    exact (moveAvailable_keeps pace (fun _ _ _ _ _ _ => rfl) _ _).trans hdrop

/-! ## The next flush -/

theorem slap_cases (kcp : IKCPCB) :
    kcp.slap = ({ kcp with ts_flush := kcp.current }, 0) ∨
      kcp.slap = (kcp, itimediff kcp.current kcp.ts_flush) ∧
        -10000 ≤ itimediff kcp.current kcp.ts_flush ∧
        itimediff kcp.current kcp.ts_flush < 10000 := by
  unfold slap
  dsimp only
  split
  · exact .inl rfl
  · rename_i hnear
    exact .inr ⟨rfl, by omega, by omega⟩

/-- Behind a flush that was due, the next one comes within an interval. -/
theorem nextFlush_spec {kcp : IKCPCB} (hinterval : kcp.interval.toNat < 2 ^ 15)
    (hpos : 0 < kcp.interval.toNat) (hdue : 0 ≤ itimediff kcp.current kcp.ts_flush)
    (hnear : itimediff kcp.current kcp.ts_flush < 10000) :
    ∃ t, kcp.nextFlush = { kcp with ts_flush := t } ∧ 0 < itimediff t kcp.current ∧
      itimediff t kcp.current ≤ kcp.interval.toNat := by
  refine ⟨_, rfl, ?_⟩
  split
  · have hself : itimediff kcp.current kcp.current = 0 := diff_self kcp.current
    rw [itimediff_add (by rw [hself]) (by omega), hself]
    omega
  · rename_i hfuture
    have hnext := itimediff_add hdue (d := kcp.interval) (by omega)
    have hswap := itimediff_swap (a := kcp.ts_flush + kcp.interval) (b := kcp.current) (by omega)
    rw [hnext] at hswap ⊢
    omega

end IKCPCB

open IKCPCB

variable {kcp kcp' : IKCPCB} {seg : IKCPSEG} {current : UInt32} {datagrams : List (List Byte)}

/-! ## Bounds -/

/-- The timeout is not less than the least one that can be set, the interval is one that can be set,
and the next flush comes within ten seconds. -/
structure Pace.Kept (p : Pace) : Prop where
  least : 30 ≤ p.rx_minrto ∧ p.rx_minrto ≤ 100
  rto : 30 ≤ p.rx_rto ∧ p.rx_rto ≤ 60000
  interval : 10 ≤ p.interval.toNat ∧ p.interval.toNat ≤ 5000
  next : p.updated ≠ 0 →
    0 < itimediff p.ts_flush p.current ∧ itimediff p.ts_flush p.current ≤ 10000

theorem ibound_spec {least : Int} (hleast : 30 ≤ least ∧ least ≤ 100) (rto : UInt32) :
    30 ≤ int (ibound (UInt32.ofInt least) rto IKCP_RTO_MAX) ∧
      int (ibound (UInt32.ofInt least) rto IKCP_RTO_MAX) ≤ 60000 := by
  obtain ⟨n, rfl⟩ := Int.eq_ofNat_of_zero_le (show 0 ≤ least by omega)
  have hn : (UInt32.ofInt (n : Int)).toNat = n := by
    rw [ofInt_natCast, UInt32.toNat_ofNat', Nat.mod_eq_of_lt (by omega)]
  have hvalue : (ibound (UInt32.ofInt (n : Int)) rto IKCP_RTO_MAX).toNat =
      min (max n rto.toNat) 60000 := by
    rw [ibound, toNat_min, toNat_max, hn]
    rfl
  rw [int_eq (by omega), hvalue]
  omega

namespace Pace.Kept

theorem new (conv : UInt32) : (ikcp_create conv).pace.Kept where
  least := ⟨show (30 : Int) ≤ 100 by decide, show (100 : Int) ≤ 100 by decide⟩
  rto := ⟨show (30 : Int) ≤ 200 by decide, show (200 : Int) ≤ 60000 by decide⟩
  interval := ⟨show 10 ≤ 100 by decide, show 100 ≤ 5000 by decide⟩
  next h := absurd rfl h

/-- What an acknowledgment does. -/
theorem ack {s s' : Input} (h : s.kcp.pace.Kept) (hack : s.ack seg = some s') :
    s'.kcp.pace.Kept := by
  obtain ⟨measured, hupdate, heq⟩ := Option.bind_eq_some_iff.mp hack
  have hmeasured : measured.pace.Kept := by
    split at hupdate
    · obtain ⟨rx_srtt, rx_rttval, rto, rfl⟩ := update_ack_spec hupdate
      exact ⟨h.least, ibound_spec h.least rto, h.interval, h.next⟩
    · cases hupdate
      exact h
  cases heq
  rw [shrink_buf_eq]
  rcases parse_ack_spec measured seg.sn with heq | ⟨segs, -, heq⟩
  · rw [heq]
    exact hmeasured
  · rw [heq]
    exact hmeasured

theorem push {s s' : Input} (h : s.kcp.pace.Kept) (hpush : s.push seg = some s') :
    s'.kcp.pace.Kept := by
  unfold Input.push at hpush
  split at hpush
  · obtain ⟨pushed, hack, hrest⟩ := Option.bind_eq_some_iff.mp hpush
    obtain ⟨ackblock, rfl⟩ := ack_push_spec hack
    cases hrest
    dsimp only
    split
    · rw [parse_data_keeps pace fun _ _ _ _ _ _ => rfl]
      exact h
    · exact h
  · cases hpush
    exact h

/-- **Bytes that come**, whatever they are. -/
theorem input {data : List Byte} {ret : Int} (h : kcp.pace.Kept)
    (hinput : kcp.ikcp_input data = some (kcp', ret)) : kcp'.pace.Kept := by
  refine IKCPCB.input_keeps (P := fun k => k.pace.Kept) ?_ ?_ h hinput
  · intro s s' seg hs _ hsegment
    have hheader : (s.header seg).kcp.pace = s.kcp.pace := by
      unfold Input.header
      dsimp only
      rw [shrink_buf_eq]
      rfl
    rw [← hheader] at hs
    rcases Input.segment_cases hsegment with ⟨-, hack⟩ | ⟨-, hpush⟩ | ⟨-, -, probe, rfl⟩
    · exact hs.ack hack
    · exact hs.push hpush
    · exact hs
  · intro k k' maxack una hk hsettle
    obtain ⟨cwnd, incr, rfl | ⟨sn, rfl⟩⟩ := settle_spec hsettle
    · exact hk
    · exact hk

/-- **A call of `ikcp_update`**: behind it the next flush is to come. -/
theorem update (h : kcp.pace.Kept) (hupdate : kcp.ikcp_update current = some (kcp', datagrams)) :
    kcp'.pace.Kept := by
  have hlow : 10 ≤ kcp.interval.toNat := h.interval.1
  have hhigh : kcp.interval.toNat ≤ 5000 := h.interval.2
  unfold ikcp_update at hupdate
  dsimp only at hupdate
  obtain ⟨updated, ts_flush, -, hclock⟩ := clock_spec kcp current
  have hset : ∀ t, 0 < itimediff t current → itimediff t current ≤ 10000 →
      ({ kcp.clock current with ts_flush := t } : IKCPCB).pace.Kept := by
    intro t hpos hle
    rw [hclock]
    exact ⟨h.least, h.rto, h.interval, fun _ => ⟨hpos, hle⟩⟩
  have hcurrent : (kcp.clock current).current = current := by rw [hclock]
  have hinterval : (kcp.clock current).interval = kcp.interval := by rw [hclock]
  clear hclock
  generalize kcp.clock current = k at *
  subst hcurrent
  -- a flush sets the time of the next one first
  have hflush : ∀ t, 0 ≤ itimediff k.current t → itimediff k.current t < 10000 →
      ({ k with ts_flush := t } : IKCPCB).nextFlush.ikcp_flush = some (kcp', datagrams) →
      kcp'.pace.Kept := by
    intro t hdue hnear hflush
    obtain ⟨next, hnext, hpos, hle⟩ : ∃ next,
        ({ k with ts_flush := t } : IKCPCB).nextFlush = { k with ts_flush := next } ∧
          0 < itimediff next k.current ∧ itimediff next k.current ≤ k.interval.toNat :=
      nextFlush_spec (show k.interval.toNat < 2 ^ 15 by rw [hinterval]; omega)
        (show 0 < k.interval.toNat by rw [hinterval]; omega) hdue hnear
    rw [hinterval] at hle
    rw [flush_pace hflush, hnext]
    exact hset next hpos (by omega)
  rcases slap_cases k with heq | ⟨heq, hlate, hnear⟩
  · rw [heq, if_pos (Int.le_refl 0)] at hupdate
    have hself : itimediff k.current k.current = 0 := diff_self k.current
    exact hflush k.current (by omega) (by omega) hupdate
  · rw [heq] at hupdate
    split at hupdate
    · rename_i hdue
      exact hflush _ hdue hnear hupdate
    · rename_i hwait
      cases hupdate
      have hswap := itimediff_swap (a := k.current) (b := k.ts_flush) (by omega)
      exact hset _ (by omega) (by omega)

/-- **The settings** keep the bounds themselves. -/
theorem set_interval (h : kcp.pace.Kept) (ms : Int) : (kcp.ikcp_interval ms).pace.Kept := by
  refine ⟨h.least, h.rto, ?_, h.next⟩
  show 10 ≤ (UInt32.ofInt (if ms > 5000 then 5000 else if ms < 10 then 10 else ms)).toNat ∧
    (UInt32.ofInt (if ms > 5000 then 5000 else if ms < 10 then 10 else ms)).toNat ≤ 5000
  generalize hclamp : (if ms > 5000 then 5000 else if ms < 10 then 10 else ms) = clamp
  have hbounds : 10 ≤ clamp ∧ clamp ≤ 5000 := by
    rw [← hclamp]
    split
    · decide
    · split <;> omega
  obtain ⟨n, rfl⟩ := Int.eq_ofNat_of_zero_le (show 0 ≤ clamp by omega)
  rw [ofInt_natCast, UInt32.toNat_ofNat', Nat.mod_eq_of_lt (by omega)]
  omega

theorem nodelay (h : kcp.pace.Kept) (on ms resend nc : Int) :
    (kcp.ikcp_nodelay on ms resend nc).pace.Kept := by
  unfold ikcp_nodelay
  extract_lets delayed timed resent
  have hdelayed : delayed.pace.Kept := by
    unfold delayed
    split
    · refine ⟨?_, h.rto, h.interval, h.next⟩
      show 30 ≤ int (if on ≠ 0 then IKCP_RTO_NDL else IKCP_RTO_MIN) ∧
        int (if on ≠ 0 then IKCP_RTO_NDL else IKCP_RTO_MIN) ≤ 100
      split <;> decide
    · exact h
  have htimed : timed.pace.Kept := by
    unfold timed
    split
    · exact hdelayed.set_interval ms
    · exact hdelayed
  have hresent : resent.pace.Kept := by
    unfold resent
    split
    · exact htimed
    · exact htimed
  split
  · exact hresent
  · exact hresent

/-- A call on one side, with whatever the other one is said to have sent. -/
theorem call {e e' : Endpoint} {sent : List (List Byte)} {c : Call} (h : e.kcp.pace.Kept)
    (hcall : e.call sent c = some e') : e'.kcp.pace.Kept := by
  cases c with
  | send buffer =>
      obtain ⟨⟨kcp, ret⟩, hsend, heq⟩ := Option.bind_eq_some_iff.mp hcall
      cases heq
      exact (send_pace hsend).symm ▸ h
  | recv len =>
      obtain ⟨⟨kcp, ret, bytes⟩, hrecv, heq⟩ := Option.bind_eq_some_iff.mp hcall
      cases heq
      exact (recv_pace hrecv).symm ▸ h
  | update current =>
      obtain ⟨⟨kcp, datagrams⟩, hupdate, heq⟩ := Option.bind_eq_some_iff.mp hcall
      cases heq
      exact h.update hupdate
  | flush =>
      obtain ⟨⟨kcp, datagrams⟩, hflush, heq⟩ := Option.bind_eq_some_iff.mp hcall
      cases heq
      exact (flush_pace hflush).symm ▸ h
  | input picks =>
      obtain ⟨⟨kcp, ret⟩, hinput, heq⟩ := Option.bind_eq_some_iff.mp hcall
      cases heq
      exact h.input hinput
  | setmtu mtu =>
      cases hcall
      have hsame : (e.kcp.ikcp_setmtu mtu).1.pace = e.kcp.pace := by
        unfold ikcp_setmtu
        split <;> rfl
      exact hsame.symm ▸ h
  | interval ms =>
      cases hcall
      exact h.set_interval ms
  | nodelay on ms resend nc =>
      cases hcall
      exact h.nodelay on ms resend nc
  | wndsize sndwnd rcvwnd =>
      cases hcall
      have hsame : (e.kcp.ikcp_wndsize sndwnd rcvwnd).pace = e.kcp.pace := by
        unfold ikcp_wndsize
        split <;> split <;> rfl
      exact hsame.symm ▸ h
  | stream on =>
      cases hcall
      exact h

end Pace.Kept

variable {conv : UInt32} {W : Nat} {e : Endpoint}

/-- **Whatever comes**, the times stay in their bounds. -/
theorem paced (conv : UInt32) (W : Nat) : (exposed conv W).Invariant fun e => e.kcp.pace.Kept := by
  apply TSys.Inductive.invariant
  constructor
  · rintro e rfl
    exact .new conv
  · rintro e c e' h ⟨-, -, hcall⟩
    exact h.call hcall

/-- The timeout is at least 30 and at most 60000, the interval at least 10 and at most 5000, and
once the clock has started the next flush is in front of it, by 10 seconds at most. -/
theorem times_bounded (h : (exposed conv W).Reachable e) :
    (30 ≤ e.kcp.rx_rto ∧ e.kcp.rx_rto ≤ 60000) ∧
      (10 ≤ e.kcp.interval.toNat ∧ e.kcp.interval.toNat ≤ 5000) ∧
      (e.kcp.updated ≠ 0 → 0 < itimediff e.kcp.ts_flush e.kcp.current ∧
        itimediff e.kcp.ts_flush e.kcp.current ≤ 10000) :=
  have hkept := paced conv W e h
  ⟨hkept.rto, hkept.interval, hkept.next⟩

/-- A side whose clock was started. -/
theorem started_reached : ∃ e, (exposed 7 128).Reachable e ∧
    (e.kcp.updated, e.kcp.current, e.kcp.ts_flush) = (1, 100, 200) := by
  have hcall : (Endpoint.call { kcp := ikcp_create 7 } [] (.update 100)).map (fun e =>
      (e.kcp.updated, e.kcp.current, e.kcp.ts_flush)) = some (1, 100, 200) := by
    decide
  obtain ⟨e, hcall, hend⟩ := Option.map_eq_some_iff.mp hcall
  have hstep : (exposed 7 128).step { kcp := ikcp_create 7 } ([], .update 100) e :=
    ⟨trivial, trivial, hcall⟩
  exact ⟨e, .step (.init rfl) hstep, hend⟩

/-- An acknowledgment of a segment that was never sent, with the time 40. -/
def strayAck : List Byte :=
  [7, 0, 0, 0, 82, 0, 128, 0, 40, 0, 0, 0, 0, 0, 0, 0, 0, 0, 0, 0, 0, 0, 0, 0]

theorem times_bounded_started : ∃ e, (exposed 7 128).Reachable e ∧ e.kcp.rx_srtt = 60 ∧
    (30 ≤ e.kcp.rx_rto ∧ e.kcp.rx_rto ≤ 60000) ∧
    (10 ≤ e.kcp.interval.toNat ∧ e.kcp.interval.toNat ≤ 5000) ∧
    0 < itimediff e.kcp.ts_flush e.kcp.current ∧
    itimediff e.kcp.ts_flush e.kcp.current ≤ 10000 := by
  have hcalls : ((Endpoint.call { kcp := ikcp_create 7 } [] (.update 100)).bind fun e =>
      (e.call [strayAck] (.input [0])).map fun e' => (e, e')).map (fun es =>
        (es.2.kcp.updated, es.2.kcp.rx_srtt)) = some (1, 60) := by
    decide
  obtain ⟨⟨e, e'⟩, hcalls, hend⟩ := Option.map_eq_some_iff.mp hcalls
  obtain ⟨f, hupdate, hcome⟩ := Option.bind_eq_some_iff.mp hcalls
  obtain ⟨g, hinput, heq⟩ := Option.map_eq_some_iff.mp hcome
  obtain ⟨rfl, rfl⟩ := Prod.mk.inj heq
  obtain ⟨hupdated, hmeasured⟩ := Prod.mk.inj hend
  have hfirst : (exposed 7 128).step { kcp := ikcp_create 7 } ([], .update 100) f :=
    ⟨trivial, trivial, hupdate⟩
  have hsecond : (exposed 7 128).step f ([strayAck], .input [0]) g := ⟨trivial, trivial, hinput⟩
  have hreach := ((TSys.Reachable.init rfl).step hfirst).step hsecond
  obtain ⟨hrto, hinterval, hnext⟩ := times_bounded hreach
  have hstarted : g.kcp.updated ≠ 0 := by
    rw [hupdated]
    decide
  exact ⟨g, hreach, hmeasured, hrto, hinterval, hnext hstarted⟩

/-! ## Waiting -/

/-- The least time until a segment is due is not less than none at all. -/
theorem untilResend_spec {current : UInt32} (segs : List IKCPSEG) :
    ∀ {tm tm' : Int}, untilResend current segs tm = some tm' → 0 < tm →
      0 < tm' ∧ tm' ≤ tm ∧ ∀ seg ∈ segs, tm' ≤ itimediff seg.resendts current := by
  induction segs with
  | nil =>
      intro tm tm' h hpos
      cases h
      exact ⟨hpos, Int.le_refl _, fun _ hseg => absurd hseg List.not_mem_nil⟩
  | cons seg segs ih =>
      intro tm tm' h hpos
      rw [untilResend] at h
      split at h
      · cases h
      · obtain ⟨hpos', hle, hall⟩ := ih h (by split <;> omega)
        have hfirst : tm' ≤ itimediff seg.resendts current ∧ tm' ≤ tm := by
          split at hle <;> omega
        refine ⟨hpos', hfirst.2, fun other hother => ?_⟩
        rcases List.mem_cons.mp hother with rfl | hother
        · exact hfirst.1
        · exact hall other hother

/-- What `ikcp_check` answers when it does not answer `current`. -/
theorem check_spec {current d : UInt32} (hupdated : kcp.updated ≠ 0)
    (hd : d < kcp.ikcp_check current - current) :
    ∃ tm, (d.toNat : Int) < tm ∧ tm ≤ itimediff kcp.ts_flush current ∧
      itimediff kcp.ts_flush current ≤ 10000 ∧
      ∀ seg ∈ kcp.snd_buf, tm ≤ itimediff seg.resendts current := by
  have hnone : ¬ d < current - current := by
    rw [UInt32.sub_self]
    exact UInt32.not_lt_zero
  have hself : itimediff current current ≥ 0 := Int.le_of_eq (diff_self current).symm
  unfold ikcp_check at hd
  rw [if_neg hupdated] at hd
  dsimp only at hd
  by_cases hfar : itimediff current kcp.ts_flush ≥ 10000 ∨ itimediff current kcp.ts_flush < -10000
  · rw [if_pos hfar, if_pos hself] at hd
    exact absurd hd hnone
  rw [if_neg hfar] at hd
  by_cases hdue : itimediff current kcp.ts_flush ≥ 0
  · rw [if_pos hdue] at hd
    exact absurd hd hnone
  rw [if_neg hdue] at hd
  have hswap := itimediff_swap (a := current) (b := kcp.ts_flush) (by omega)
  cases htm : untilResend current kcp.snd_buf 0x7fffffff with
  | none =>
      rw [htm] at hd
      exact absurd hd hnone
  | some tm =>
      obtain ⟨hpos, -, hall⟩ := untilResend_spec kcp.snd_buf htm (by decide)
      rw [htm] at hd
      dsimp only at hd
      generalize hleast : (if tm < itimediff kcp.ts_flush current then tm
        else itimediff kcp.ts_flush current) = least at hd
      have hbounds : 0 ≤ least ∧ least ≤ tm ∧ least ≤ itimediff kcp.ts_flush current := by
        split at hleast <;> omega
      refine ⟨least, ?_, hbounds.2.2, by omega, fun seg hseg => hbounds.2.1.trans (hall seg hseg)⟩
      obtain ⟨n, rfl⟩ := Int.eq_ofNat_of_zero_le hbounds.1
      have hn : (UInt32.ofInt (n : Int)).toNat = n := by
        rw [ofInt_natCast, UInt32.toNat_ofNat', Nat.mod_eq_of_lt (by omega)]
      rw [UInt32.add_comm, UInt32.add_sub_cancel, UInt32.lt_iff_toNat_lt] at hd
      split at hd
      · rename_i hle
        have hle := UInt32.le_iff_toNat_le.mp hle
        omega
      · omega

/-- An update before the next flush only sets the clock. -/
theorem update_early {current d : UInt32} (hupdated : kcp.updated ≠ 0)
    (hwait : (d.toNat : Int) < itimediff kcp.ts_flush current)
    (hnear : itimediff kcp.ts_flush current ≤ 10000) :
    kcp.ikcp_update (current + d) = some ({ kcp with current := current + d }, []) := by
  have hlate := itimediff_add (show 0 ≤ itimediff kcp.ts_flush current by omega)
    (show d.toNat < 2 ^ 31 by omega)
  have hclock : kcp.clock (current + d) = { kcp with current := current + d } := if_neg hupdated
  have hnone : ¬ (itimediff (current + d) kcp.ts_flush ≥ 10000 ∨
      itimediff (current + d) kcp.ts_flush < -10000) := by
    omega
  have hslap : ({ kcp with current := current + d } : IKCPCB).slap =
      ({ kcp with current := current + d }, itimediff (current + d) kcp.ts_flush) := if_neg hnone
  unfold ikcp_update
  rw [hclock, hslap]
  exact if_neg (show ¬ itimediff (current + d) kcp.ts_flush ≥ 0 by omega)

/-- **Nothing is due before the time of `ikcp_check`.** A call of `ikcp_update` at an earlier time
only sets the clock, and no segment is to be sent again by then. -/
theorem check_waits {current d : UInt32} (hupdated : kcp.updated ≠ 0)
    (hd : d < kcp.ikcp_check current - current) :
    kcp.ikcp_update (current + d) = some ({ kcp with current := current + d }, []) ∧
      ∀ seg ∈ kcp.snd_buf, itimediff (current + d) seg.resendts < 0 := by
  obtain ⟨tm, hlt, hflush, hnear, hsegs⟩ := check_spec hupdated hd
  refine ⟨update_early hupdated (by omega) hnear, fun seg hseg => ?_⟩
  have hle := hsegs seg hseg
  have htop : itimediff seg.resendts current < 2 ^ 31 := Int32.toInt_lt _
  rw [itimediff_add (by omega) (by omega)]
  omega

/-- Ten before the next flush a segment is to be sent again. -/
theorem check_waits_fifty : ∃ kcp : IKCPCB, kcp.ikcp_check 150 = 190 ∧ kcp.snd_buf.length = 2 ∧
    kcp.ikcp_update (150 + 39) = some ({ kcp with current := 150 + 39 }, []) ∧
      ∀ seg ∈ kcp.snd_buf, itimediff (150 + 39) seg.resendts < 0 :=
  ⟨{ ikcp_create 7 with
      updated := 1
      ts_flush := 200
      snd_buf := [{ sn := 0, xmit := 1, resendts := 240 }, { sn := 1, xmit := 2, resendts := 190 }] },
    by decide, rfl, check_waits (by decide) (by decide)⟩

/-- **A flush is never missed.** In every state that is reached, an update at any later time flushes
if and only if the time of the next flush has come, and sets the one behind it. -/
theorem update_when_due (h : (exposed conv W).Reachable e) (hupdated : e.kcp.updated ≠ 0)
    {d : UInt32} (hd : d.toNat < 2 ^ 31) :
    if (d.toNat : Int) < itimediff e.kcp.ts_flush e.kcp.current then
      e.kcp.ikcp_update (e.kcp.current + d) =
        some ({ e.kcp with current := e.kcp.current + d }, [])
    else ∃ t, e.kcp.ikcp_update (e.kcp.current + d) =
        ({ e.kcp with current := e.kcp.current + d, ts_flush := t } : IKCPCB).ikcp_flush ∧
      0 < itimediff t (e.kcp.current + d) ∧
      itimediff t (e.kcp.current + d) ≤ e.kcp.interval.toNat := by
  have hkept : e.kcp.pace.Kept := paced conv W e h
  obtain ⟨hpos, hle⟩ := hkept.next hupdated
  generalize e.kcp = kcp at *
  have hlow : 10 ≤ kcp.interval.toNat := hkept.interval.1
  have hhigh : kcp.interval.toNat ≤ 5000 := hkept.interval.2
  split
  · rename_i hwait
    exact update_early hupdated hwait hle
  · rename_i hdue
    have hpos : 0 < itimediff kcp.ts_flush kcp.current := hpos
    have hlate := itimediff_add (Int.le_of_lt hpos) hd
    have hclock : kcp.clock (kcp.current + d) = { kcp with current := kcp.current + d } :=
      if_neg hupdated
    have hself : itimediff (kcp.current + d) (kcp.current + d) = 0 := diff_self _
    have hspec : ∀ t, 0 ≤ itimediff (kcp.current + d) t → itimediff (kcp.current + d) t < 10000 →
        ∃ next, ({ kcp with current := kcp.current + d, ts_flush := t } : IKCPCB).nextFlush =
            { kcp with current := kcp.current + d, ts_flush := next } ∧
          0 < itimediff next (kcp.current + d) ∧
          itimediff next (kcp.current + d) ≤ kcp.interval.toNat := fun t hdue hnear =>
      nextFlush_spec (show kcp.interval.toNat < 2 ^ 15 by omega)
        (show 0 < kcp.interval.toNat by omega) hdue hnear
    unfold ikcp_update
    rw [hclock]
    dsimp only
    rcases slap_cases { kcp with current := kcp.current + d } with heq | ⟨heq, -, hnear⟩
    · obtain ⟨next, hnext, hbounds⟩ := hspec (kcp.current + d) (by omega) (by omega)
      rw [heq]
      exact ⟨next, by rw [← hnext]; rfl, hbounds⟩
    · obtain ⟨next, hnext, hbounds⟩ := hspec kcp.ts_flush (by omega) hnear
      rw [heq, if_pos (show itimediff (kcp.current + d) kcp.ts_flush ≥ 0 by omega)]
      exact ⟨next, by rw [← hnext], hbounds⟩

/-- The next flush is due at 200. -/
theorem update_when_due_started : ∃ e, (exposed 7 128).Reachable e ∧
    e.kcp.ikcp_update (100 + 50) = some ({ e.kcp with current := 100 + 50 }, []) ∧
    ∃ t, e.kcp.ikcp_update (100 + 150) =
        ({ e.kcp with current := 100 + 150, ts_flush := t } : IKCPCB).ikcp_flush ∧
      0 < itimediff t (100 + 150) ∧ itimediff t (100 + 150) ≤ e.kcp.interval.toNat := by
  obtain ⟨e, hreach, hend⟩ := started_reached
  obtain ⟨hupdated, hend⟩ := Prod.mk.inj hend
  obtain ⟨hcurrent, hflush⟩ := Prod.mk.inj hend
  have hstarted : e.kcp.updated ≠ 0 := by
    rw [hupdated]
    decide
  have hearly := update_when_due hreach hstarted (show (50 : UInt32).toNat < 2 ^ 31 by decide)
  have hdue := update_when_due hreach hstarted (show (150 : UInt32).toNat < 2 ^ 31 by decide)
  rw [hcurrent, hflush, if_pos (by decide)] at hearly
  rw [hcurrent, hflush, if_neg (by decide)] at hdue
  exact ⟨e, hreach, hearly, hdue⟩

end LearnSpace.Kcp
