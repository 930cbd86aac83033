import LearnSpace.Kcp.Control

/-!
# Flushing

`ikcp_flush` writes what is to be sent behind one another into `buffer`, and hands the buffer to
the output callback each time the next segment would make it longer than `mtu`. `ikcp_update`
calls it when its time has come, and `ikcp_check` says when that is.

What the callback is given comes as a list of datagrams. `none` is a write behind the end of
`buffer`, or a size of what is in it that is too large for an `int`.
-/

namespace LearnSpace.Kcp

namespace IKCPCB

/-- What there is from `buffer` to `ptr`, and the datagrams that `ikcp_output` has passed on. -/
structure Output where
  buffer : List Byte := []
  datagrams : List (List Byte) := []
  deriving DecidableEq

/-- `ikcp_output(kcp, buffer, size)`, which does nothing without a byte, and `ptr = buffer`. -/
def Output.pass (out : Output) : Output :=
  if out.buffer = [] then out else { datagrams := out.datagrams ++ [out.buffer] }

variable (kcp : IKCPCB)

/-- `(int)(ptr - buffer)`. -/
def Output.size (out : Output) : Option Int := checked out.buffer.length

/-- Bytes are written at `ptr`. -/
def write (out : Output) (bytes : List Byte) : Option Output :=
  if out.buffer.length + bytes.length ≤ kcp.bufferSize.toNat then
    some { out with buffer := out.buffer ++ bytes }
  else none

/-- The buffer is passed on if `need` more bytes are too many for a datagram. -/
def makeRoom (out : Output) (need : Int) : Option Output := do
  let size ← out.size
  let sum ← checked (size + need)
  return if sum > int kcp.mtu then out.pass else out

/-- A segment is written where there is room for it. -/
def writeSeg (out : Output) (need : Int) (seg : IKCPSEG) : Option Output := do
  let out ← kcp.makeRoom out need
  let out ← kcp.write out (ikcp_encode_seg seg)
  kcp.write out seg.data

def ikcp_wnd_unused : UInt32 :=
  if kcp.nrcv_que < kcp.rcv_wnd then kcp.rcv_wnd - kcp.nrcv_que else 0

/-- The local `seg` of `ikcp_flush`. -/
def flushSeg : IKCPSEG :=
  { conv := kcp.conv, cmd := IKCP_CMD_ACK, wnd := kcp.ikcp_wnd_unused, una := kcp.rcv_nxt }

/-- The loop over the acknowledgments. What it leaves in `seg` goes into the probes too. -/
def flushAcks : List (UInt32 × UInt32) → IKCPSEG → Output → Option (IKCPSEG × Output)
  | [], seg, out => some (seg, out)
  | (sn, ts) :: acks, seg, out => do
    let seg := { seg with sn, ts }
    let out ← kcp.writeSeg out (int IKCP_OVERHEAD) seg
    flushAcks acks seg out

/-- Whether it is time to ask for the window of the other side. -/
def probeWindow : IKCPCB :=
  if kcp.rmt_wnd = 0 then
    if kcp.probe_wait = 0 then
      { kcp with probe_wait := IKCP_PROBE_INIT, ts_probe := kcp.current + IKCP_PROBE_INIT }
    else if itimediff kcp.current kcp.ts_probe ≥ 0 then
      let probe_wait := if kcp.probe_wait < IKCP_PROBE_INIT then IKCP_PROBE_INIT else kcp.probe_wait
      let probe_wait := probe_wait + probe_wait / 2
      let probe_wait := if probe_wait > IKCP_PROBE_LIMIT then IKCP_PROBE_LIMIT else probe_wait
      { kcp with
        probe_wait
        ts_probe := kcp.current + probe_wait
        probe := kcp.probe ||| IKCP_ASK_SEND }
    else kcp
  else { kcp with ts_probe := 0, probe_wait := 0 }

/-- A segment without data that is sent if a flag of `probe` is set. -/
def flushProbe (flag cmd : UInt32) (seg : IKCPSEG) (out : Output) : Option Output :=
  if kcp.probe &&& flag ≠ 0 then kcp.writeSeg out (int IKCP_OVERHEAD) { seg with cmd } else some out

/-- The window to send in. -/
def window : UInt32 :=
  let cwnd := min kcp.snd_wnd kcp.rmt_wnd
  if kcp.nocwnd = 0 then min kcp.cwnd cwnd else cwnd

/-- A segment as it goes to `snd_buf`, with `wnd` that of `seg`. -/
def numbered (wnd : UInt32) (newseg : IKCPSEG) : IKCPSEG :=
  { newseg with
    conv := kcp.conv
    cmd := IKCP_CMD_PUSH
    wnd := wnd
    ts := kcp.current
    sn := kcp.snd_nxt
    una := kcp.rcv_nxt
    resendts := kcp.current
    rto := UInt32.ofInt kcp.rx_rto
    fastack := 0
    xmit := 0 }

/-- The loop that moves segments from `snd_queue` to `snd_buf`, with `queue` left to move. -/
def moveToBuf (cwnd wnd : UInt32) (kcp : IKCPCB) : (queue : List IKCPSEG) → IKCPCB
  | [] => { kcp with snd_queue := [] }
  | newseg :: queue =>
    if itimediff kcp.snd_nxt (kcp.snd_una + cwnd) < 0 then
      moveToBuf cwnd wnd
        { kcp with
          snd_buf := kcp.snd_buf ++ [kcp.numbered wnd newseg]
          nsnd_que := kcp.nsnd_que - 1
          nsnd_buf := kcp.nsnd_buf + 1
          snd_nxt := kcp.snd_nxt + 1 } queue
    else { kcp with snd_queue := newseg :: queue }

/-- The number of skipped acknowledgments at which a segment is sent again. -/
def resent : UInt32 := if kcp.fastresend > 0 then UInt32.ofInt kcp.fastresend else 0xffffffff

def rtomin : UInt32 := if kcp.nodelay = 0 then UInt32.ofInt (kcp.rx_rto / 8) else 0

/-- Why a segment is sent. -/
inductive Reason
  | first
  | timeout
  | fast
  deriving DecidableEq, Repr

/-- Whether a segment is sent now. -/
def reason (segment : IKCPSEG) : Option Reason :=
  if segment.xmit = 0 then some .first
  else if itimediff kcp.current segment.resendts ≥ 0 then some .timeout
  else if segment.fastack ≥ kcp.resent then
    if int segment.xmit ≤ kcp.fastlimit ∨ kcp.fastlimit ≤ 0 then some .fast else none
  else none

/-- How much longer the next timeout of a segment is. -/
def backOff (segment : IKCPSEG) : UInt32 :=
  if kcp.nodelay = 0 then max segment.rto (UInt32.ofInt kcp.rx_rto)
  else UInt32.ofInt ((if kcp.nodelay < 2 then int segment.rto else kcp.rx_rto).tdiv 2)

/-- The times and counts of a segment that is sent. -/
def schedule (segment : IKCPSEG) : Reason → IKCPSEG
  | .first =>
    { segment with
      xmit := segment.xmit + 1
      rto := UInt32.ofInt kcp.rx_rto
      resendts := kcp.current + UInt32.ofInt kcp.rx_rto + kcp.rtomin }
  | .timeout =>
    { segment with
      xmit := segment.xmit + 1
      rto := segment.rto + kcp.backOff segment
      resendts := kcp.current + (segment.rto + kcp.backOff segment) }
  | .fast =>
    { segment with
      xmit := segment.xmit + 1
      fastack := 0
      resendts := kcp.current + segment.rto }

/-- What the loop over `snd_buf` leaves in the local variables and in `kcp`. -/
structure Sent where
  out : Output
  xmit : UInt32
  state : UInt32
  change : Nat := 0
  lost : Bool := false
  deriving DecidableEq

/-- The segment is in the datagram. `wnd` is that of `seg`. -/
def sendSegment (wnd : UInt32) (segment : IKCPSEG) (why : Reason) (s : Sent) :
    Option (IKCPSEG × Sent) := do
  let segment := { kcp.schedule segment why with ts := kcp.current, wnd, una := kcp.rcv_nxt }
  let out ← kcp.writeSeg s.out (int (IKCP_OVERHEAD + segment.len)) segment
  return (segment,
    { out
      xmit := if why = .timeout then s.xmit + 1 else s.xmit
      state := if segment.xmit ≥ kcp.dead_link then 0xffffffff else s.state
      change := if why = .fast then s.change + 1 else s.change
      lost := s.lost || why = .timeout })

/-- An iteration of the loop over `snd_buf`. -/
def flushSegment (wnd : UInt32) (segment : IKCPSEG) (s : Sent) : Option (IKCPSEG × Sent) :=
  match kcp.reason segment with
  | some why => kcp.sendSegment wnd segment why s
  | none => some (segment, s)

/-- The loop over `snd_buf`. -/
def flushData (wnd : UInt32) : List IKCPSEG → Sent → Option (List IKCPSEG × Sent)
  | [], s => some ([], s)
  | segment :: segs, s => do
    let (segment, s) ← kcp.flushSegment wnd segment s
    let (segs, s) ← flushData wnd segs s
    return (segment :: segs, s)

/-- `if (ssthresh < IKCP_THRESH_MIN)`. -/
def threshold (ssthresh : UInt32) : UInt32 :=
  if ssthresh < IKCP_THRESH_MIN then IKCP_THRESH_MIN else ssthresh

/-- The congestion window behind the loop. `cwnd` is the window that was sent in. -/
def shrinkWindow (cwnd : UInt32) (change : Nat) (lost : Bool) : IKCPCB :=
  let kcp := if change ≠ 0 then
      let ssthresh := threshold ((kcp.snd_nxt - kcp.snd_una) / 2)
      { kcp with
        ssthresh
        cwnd := ssthresh + kcp.resent
        incr := (ssthresh + kcp.resent) * kcp.mss }
    else kcp
  let kcp := if lost then
      { kcp with ssthresh := threshold (cwnd / 2), cwnd := 1, incr := kcp.mss }
    else kcp
  if kcp.cwnd < 1 then { kcp with cwnd := 1, incr := kcp.mss } else kcp

/-- `ikcp_flush` up to the probes: what is to be acknowledged, and what is asked and told about the
windows. Of `seg` only `wnd` is needed behind it. -/
def flushHead : Option (IKCPCB × UInt32 × Output) := do
  let (seg, out) ← kcp.flushAcks kcp.acklist kcp.flushSeg {}
  let kcp := probeWindow { kcp with acklist := [] }
  let out ← kcp.flushProbe IKCP_ASK_SEND IKCP_CMD_WASK seg out
  let out ← kcp.flushProbe IKCP_ASK_TELL IKCP_CMD_WINS seg out
  return ({ kcp with probe := 0 }, seg.wnd, out)

/-- `ikcp_flush` from the loop over `snd_buf` on, and the datagrams it has sent in the end. -/
def flushTail (cwnd wnd : UInt32) (out : Output) : Option (IKCPCB × List (List Byte)) := do
  let (snd_buf, s) ←
    kcp.flushData wnd kcp.snd_buf { out, xmit := kcp.xmit, state := kcp.state }
  let _ ← s.out.size
  let kcp := { kcp with snd_buf, xmit := s.xmit, state := s.state }
  return (kcp.shrinkWindow cwnd s.change s.lost, s.out.pass.datagrams)

/-- `ikcp_flush`, and the datagrams it sends. -/
def ikcp_flush : Option (IKCPCB × List (List Byte)) :=
  if kcp.updated = 0 then some (kcp, [])
  else do
    let (kcp, wnd, out) ← kcp.flushHead
    flushTail (moveToBuf kcp.window wnd kcp kcp.snd_queue) kcp.window wnd out

/-! ## The clock -/

/-- The time, which the first call starts. -/
def clock (current : UInt32) : IKCPCB :=
  if kcp.updated = 0 then { kcp with current, updated := 1, ts_flush := current }
  else { kcp with current }

/-- How late it is for the next flush, which is taken to be due if it is too far away. -/
def slap : IKCPCB × Int :=
  let slap := itimediff kcp.current kcp.ts_flush
  if slap ≥ 10000 ∨ slap < -10000 then ({ kcp with ts_flush := kcp.current }, 0) else (kcp, slap)

/-- When the next flush will be. -/
def nextFlush : IKCPCB :=
  let ts_flush := kcp.ts_flush + kcp.interval
  { kcp with
    ts_flush :=
      if itimediff kcp.current ts_flush ≥ 0 then kcp.current + kcp.interval else ts_flush }

def ikcp_update (current : UInt32) : Option (IKCPCB × List (List Byte)) :=
  let (kcp, slap) := (kcp.clock current).slap
  if slap ≥ 0 then kcp.nextFlush.ikcp_flush else some (kcp, [])

/-- The loop of `ikcp_check`: the least time until a segment is to be sent again, or nothing if
one is due. -/
def untilResend (current : UInt32) : List IKCPSEG → (tm_packet : Int) → Option Int
  | [], tm_packet => some tm_packet
  | seg :: segs, tm_packet =>
    let diff := itimediff seg.resendts current
    if diff ≤ 0 then none
    else untilResend current segs (if diff < tm_packet then diff else tm_packet)

def ikcp_check (current : UInt32) : UInt32 :=
  if kcp.updated = 0 then current
  else
    let ts_flush :=
      if itimediff current kcp.ts_flush ≥ 10000 ∨ itimediff current kcp.ts_flush < -10000 then
        current
      else kcp.ts_flush
    if itimediff current ts_flush ≥ 0 then current
    else
      let tm_flush := itimediff ts_flush current
      match untilResend current kcp.snd_buf 0x7fffffff with
      | none => current
      | some tm_packet =>
        let minimal := UInt32.ofInt (if tm_packet < tm_flush then tm_packet else tm_flush)
        current + (if minimal ≥ kcp.interval then kcp.interval else minimal)

end IKCPCB

end LearnSpace.Kcp
