import LearnSpace.Keel.Fuel
import LearnSpace.Kcp.Control

/-!
# Input

What `ikcp_input` does with the bytes of a datagram: segment by segment it takes the window and
the acknowledgments of the other side in, and files the data that comes.

`none` is a read behind the end of the data, a signed overflow in the estimate of the round trip,
a division by 0, or the loop in `ikcp_ack_push` that doubles up to a size it cannot reach. What
`IKCP_FASTACK_CONSERVE` adds is left out, it is not defined.
-/

namespace LearnSpace.Kcp

open Keel

namespace IKCPCB

/-! ## Acknowledgments that come in -/

/-- `rx_srtt` and `rx_rttval` behind a measurement, in `ikcp_update_ack`. `delta` is a `long`, of 64
bits, so neither its sign nor the sum with it can overflow. -/
def estimate (kcp : IKCPCB) (rtt : Int) : Option (Int × Int) :=
  if kcp.rx_srtt = 0 then some (rtt, rtt.tdiv 2)
  else do
    let delta ← checked (rtt - kcp.rx_srtt)
    let delta := if delta < 0 then -delta else delta
    let thrice ← checked (3 * kcp.rx_rttval)
    let rx_rttval := (thrice + delta).tdiv 4
    let sevenfold ← checked (7 * kcp.rx_srtt)
    let sum ← checked (sevenfold + rtt)
    let rx_srtt := sum.tdiv 8
    return (if rx_srtt < 1 then 1 else rx_srtt, rx_rttval)

def ikcp_update_ack (kcp : IKCPCB) (rtt : Int) : Option IKCPCB := do
  let (rx_srtt, rx_rttval) ← kcp.estimate rtt
  let fourfold ← checked (4 * rx_rttval)
  let rto := UInt32.ofInt rx_srtt + max kcp.interval (UInt32.ofInt fourfold)
  return { kcp with
    rx_srtt, rx_rttval
    rx_rto := int (ibound (UInt32.ofInt kcp.rx_minrto) rto IKCP_RTO_MAX) }

def ikcp_shrink_buf (kcp : IKCPCB) : IKCPCB :=
  match kcp.snd_buf with
  | seg :: _ => { kcp with snd_una := seg.sn }
  | [] => { kcp with snd_una := kcp.snd_nxt }

/-- The loop of `ikcp_parse_ack`: the segment is taken out, if it is found before a later one. -/
def takeOut (sn : UInt32) : List IKCPSEG → Option (List IKCPSEG)
  | [] => none
  | seg :: segs =>
    if sn = seg.sn then some segs
    else if itimediff sn seg.sn < 0 then none
    else (takeOut sn segs).map (seg :: ·)

/-- What has been sent and not been acknowledged, as far as `snd_una` and `snd_nxt` tell. -/
def Unsettled (kcp : IKCPCB) (sn : UInt32) : Prop :=
  ¬ (itimediff sn kcp.snd_una < 0 ∨ itimediff sn kcp.snd_nxt ≥ 0)

instance (kcp : IKCPCB) (sn : UInt32) : Decidable (kcp.Unsettled sn) :=
  inferInstanceAs (Decidable (¬ (_ ∨ _)))

def ikcp_parse_ack (kcp : IKCPCB) (sn : UInt32) : IKCPCB :=
  if kcp.Unsettled sn then
    match takeOut sn kcp.snd_buf with
    | some segs => { kcp with snd_buf := segs, nsnd_buf := kcp.nsnd_buf - 1 }
    | none => kcp
  else kcp

/-- The segments in front with a number below `una` are taken out. -/
def ikcp_parse_una (kcp : IKCPCB) (una : UInt32) : IKCPCB :=
  let segs := kcp.snd_buf.dropWhile fun seg => itimediff una seg.sn > 0
  { kcp with
    snd_buf := segs
    nsnd_buf := kcp.nsnd_buf - UInt32.ofNat (kcp.snd_buf.length - segs.length) }

/-- The loop of `ikcp_parse_fastack`. -/
def passOver (sn : UInt32) : List IKCPSEG → List IKCPSEG
  | [] => []
  | seg :: segs =>
    if itimediff sn seg.sn < 0 then seg :: segs
    else if sn ≠ seg.sn then { seg with fastack := seg.fastack + 1 } :: passOver sn segs
    else seg :: passOver sn segs

def ikcp_parse_fastack (kcp : IKCPCB) (sn : UInt32) : IKCPCB :=
  if kcp.Unsettled sn then { kcp with snd_buf := passOver sn kcp.snd_buf } else kcp

/-! ## Acknowledgments to go out -/

/-- `for (newblock = 8; newblock < newsize; newblock <<= 1);`. Behind 2^31 comes 0. -/
def newblock (newsize : UInt32) : Option UInt32 :=
  ((List.range 29).map fun i => (8 : UInt32) <<< UInt32.ofNat i).find? fun newblock =>
    ¬ newblock < newsize

def ikcp_ack_push (kcp : IKCPCB) (sn ts : UInt32) : Option IKCPCB := do
  let newsize := kcp.ackcount + 1
  let ackblock ← (if newsize > kcp.ackblock then newblock newsize else some kcp.ackblock)
  return { kcp with acklist := kcp.acklist ++ [(sn, ts)], ackblock }

/-! ## Data -/

/-- The search in `ikcp_parse_data`, over `rcv_buf` from its end: `newseg` goes in front of the
first segment with a lower number, unless one has the same. -/
def insertBack (newseg : IKCPSEG) : List IKCPSEG → Option (List IKCPSEG)
  | [] => some [newseg]
  | seg :: segs =>
    if seg.sn = newseg.sn then none
    else if itimediff newseg.sn seg.sn > 0 then some (newseg :: seg :: segs)
    else (insertBack newseg segs).map (seg :: ·)

/-- The segment is put into `rcv_buf`, or deleted if it is there. -/
def storeSeg (kcp : IKCPCB) (newseg : IKCPSEG) : IKCPCB :=
  match insertBack newseg kcp.rcv_buf.reverse with
  | some segs => { kcp with rcv_buf := segs.reverse, nrcv_buf := kcp.nrcv_buf + 1 }
  | none => kcp

def ikcp_parse_data (kcp : IKCPCB) (newseg : IKCPSEG) : IKCPCB :=
  if itimediff newseg.sn (kcp.rcv_nxt + kcp.rcv_wnd) ≥ 0 ∨ itimediff newseg.sn kcp.rcv_nxt < 0 then
    kcp
  else
    let kcp := kcp.storeSeg newseg
    kcp.moveAvailable kcp.rcv_buf

end IKCPCB

/-! ## Datagrams -/

/-- The control block in the loop of `ikcp_input`, and `maxack` once `flag` is set. -/
structure Input where
  kcp : IKCPCB
  maxack : Option UInt32 := none
  deriving DecidableEq

namespace Input

/-- A segment with `IKCP_CMD_ACK`. -/
def ack (s : Input) (seg : IKCPSEG) : Option Input := do
  let rtt := itimediff s.kcp.current seg.ts
  let kcp ← (if rtt ≥ 0 then s.kcp.ikcp_update_ack rtt else some s.kcp)
  let maxack := match s.maxack with
    | none => seg.sn
    | some maxack => if itimediff seg.sn maxack > 0 then seg.sn else maxack
  return { s with kcp := (kcp.ikcp_parse_ack seg.sn).ikcp_shrink_buf, maxack := some maxack }

/-- A segment with `IKCP_CMD_PUSH`. -/
def push (s : Input) (seg : IKCPSEG) : Option Input :=
  if itimediff seg.sn (s.kcp.rcv_nxt + s.kcp.rcv_wnd) < 0 then do
    let kcp ← s.kcp.ikcp_ack_push seg.sn seg.ts
    return { s with
      kcp := if itimediff seg.sn kcp.rcv_nxt ≥ 0 then kcp.ikcp_parse_data seg else kcp }
  else some s

/-- The window and `una` of the other side, which every segment has. -/
def header (s : Input) (seg : IKCPSEG) : Input :=
  let kcp := { s.kcp with rmt_wnd := seg.wnd }
  { s with kcp := (kcp.ikcp_parse_una seg.una).ikcp_shrink_buf }

/-- What the loop does with a segment that has come whole. -/
def segment (s : Input) (seg : IKCPSEG) : Option Input :=
  let s := s.header seg
  if seg.cmd = IKCP_CMD_ACK then s.ack seg
  else if seg.cmd = IKCP_CMD_PUSH then s.push seg
  else if seg.cmd = IKCP_CMD_WASK then
    some { s with kcp := { s.kcp with probe := s.kcp.probe ||| IKCP_ASK_TELL } }
  else some s

/-- The commands there are. -/
def Supported (cmd : UInt32) : Prop :=
  cmd = IKCP_CMD_PUSH ∨ cmd = IKCP_CMD_ACK ∨ cmd = IKCP_CMD_WASK ∨ cmd = IKCP_CMD_WINS

instance (cmd : UInt32) : Decidable (Supported cmd) := inferInstanceAs (Decidable (_ ∨ _))

/-- An iteration of the loop of `ikcp_input`, with the bytes that are left. The loop is left with
what is to be returned, where 0 stands for `break`. -/
def turn : Input × List Byte → Option ((Input × List Byte) ⊕ (Input × Int))
  | (s, data) =>
    if data.length < IKCP_OVERHEAD.toNat then some (.inr (s, 0))
    else do
      let (seg, len, data) ← decodeSeg data
      if seg.conv ≠ s.kcp.conv then return .inr (s, -1)
      if data.length < len.toNat ∨ int len < 0 then return .inr (s, -2)
      if ¬ Supported seg.cmd then return .inr (s, -3)
      let s ← s.segment { seg with data := data.take len.toNat }
      return .inl (s, data.drop len.toNat)

end Input

namespace IKCPCB

/-- The congestion window behind the threshold, in the last lines of `ikcp_input`. -/
def growSlowly (kcp : IKCPCB) : Option IKCPCB :=
  let mss := kcp.mss
  let incr := if kcp.incr < mss then mss else kcp.incr
  if incr = 0 then none
  else
    let incr := incr + (mss * mss / incr + mss / 16)
    some { kcp with
      incr
      cwnd := if (kcp.cwnd + 1) * mss ≤ incr then (incr + mss - 1) / (if mss > 0 then mss else 1)
        else kcp.cwnd }

/-- The congestion window when something was acknowledged. -/
def growWindow (kcp : IKCPCB) : Option IKCPCB := do
  let kcp ←
    (if kcp.cwnd < kcp.ssthresh then
      some { kcp with cwnd := kcp.cwnd + 1, incr := kcp.incr + kcp.mss }
    else kcp.growSlowly)
  return if kcp.cwnd > kcp.rmt_wnd then
      { kcp with cwnd := kcp.rmt_wnd, incr := kcp.rmt_wnd * kcp.mss }
    else kcp

/-- What `ikcp_input` does behind its loop. -/
def settle (kcp : IKCPCB) (maxack : Option UInt32) (prev_una : UInt32) : Option IKCPCB :=
  let kcp := match maxack with
    | some maxack => kcp.ikcp_parse_fastack maxack
    | none => kcp
  if itimediff kcp.snd_una prev_una > 0 ∧ kcp.cwnd < kcp.rmt_wnd then kcp.growWindow else some kcp

/-- `ikcp_input`, of all the bytes of `data`. -/
def ikcp_input (kcp : IKCPCB) (data : List Byte) : Option (IKCPCB × Int) :=
  if int (UInt32.ofNat data.length) < int IKCP_OVERHEAD then some (kcp, -1)
  else do
    let (s, ret) ← Fuel.loop Input.turn (data.length + 1) ({ kcp }, data)
    if ret ≠ 0 then return (s.kcp, ret)
    let settled ← s.kcp.settle s.maxack kcp.snd_una
    return (settled, 0)

end IKCPCB

end LearnSpace.Kcp
