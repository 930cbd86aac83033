import LearnSpace.Kcp.Segment

/-!
# The control block

`ikcpcb`, its settings, and the two calls of the application: `ikcp_send` cuts a message into
segments behind the queue, and `ikcp_recv` puts the segments of the next message together.

A queue is the list of its segments. The counters are words of their own, as in the source.
Left out are the callbacks and the log, and memory that cannot be allocated. `none` is an
assertion that fails or a signed overflow.
-/

namespace LearnSpace.Kcp

open Keel

/-- `ikcpcb`, with the values that `ikcp_create` sets. -/
structure IKCPCB where
  conv : UInt32
  mtu : UInt32 := IKCP_MTU_DEF
  mss : UInt32 := IKCP_MTU_DEF - IKCP_OVERHEAD
  state : UInt32 := 0
  snd_una : UInt32 := 0
  snd_nxt : UInt32 := 0
  rcv_nxt : UInt32 := 0
  ssthresh : UInt32 := IKCP_THRESH_INIT
  rx_rttval : Int := 0
  rx_srtt : Int := 0
  rx_rto : Int := int IKCP_RTO_DEF
  rx_minrto : Int := int IKCP_RTO_MIN
  snd_wnd : UInt32 := IKCP_WND_SND
  rcv_wnd : UInt32 := IKCP_WND_RCV
  rmt_wnd : UInt32 := IKCP_WND_RCV
  cwnd : UInt32 := 0
  probe : UInt32 := 0
  current : UInt32 := 0
  interval : UInt32 := IKCP_INTERVAL
  ts_flush : UInt32 := IKCP_INTERVAL
  xmit : UInt32 := 0
  nrcv_buf : UInt32 := 0
  nsnd_buf : UInt32 := 0
  nrcv_que : UInt32 := 0
  nsnd_que : UInt32 := 0
  nodelay : UInt32 := 0
  updated : UInt32 := 0
  ts_probe : UInt32 := 0
  probe_wait : UInt32 := 0
  dead_link : UInt32 := IKCP_DEADLINK
  incr : UInt32 := 0
  snd_queue : List IKCPSEG := []
  rcv_queue : List IKCPSEG := []
  snd_buf : List IKCPSEG := []
  rcv_buf : List IKCPSEG := []
  /-- the first `ackcount` entries, `sn` and `ts` of each -/
  acklist : List (UInt32 × UInt32) := []
  ackblock : UInt32 := 0
  fastresend : Int := 0
  fastlimit : Int := IKCP_FASTACK_LIMIT
  nocwnd : Int := 0
  stream : Int := 0
  /-- how many bytes were allocated for `buffer` -/
  bufferSize : UInt32 := (IKCP_MTU_DEF + IKCP_OVERHEAD) * 3
  deriving DecidableEq, Repr

/-- `ikcp_create`. -/
def ikcp_create (conv : UInt32) : IKCPCB := { conv }

namespace IKCPCB

/-- The field `ackcount`. -/
def ackcount (kcp : IKCPCB) : UInt32 := UInt32.ofNat kcp.acklist.length

/-! ## Settings -/

def ikcp_setmtu (kcp : IKCPCB) (mtu : Int) : IKCPCB × Int :=
  if mtu < 50 ∨ mtu < int IKCP_OVERHEAD then (kcp, -1)
  else
    let mtu := UInt32.ofInt mtu
    ({ kcp with
        mtu := mtu
        mss := mtu - IKCP_OVERHEAD
        bufferSize := (mtu + IKCP_OVERHEAD) * 3 }, 0)

/-- `ikcp_interval`, of which `ikcp_nodelay` has a copy. -/
def ikcp_interval (kcp : IKCPCB) (interval : Int) : IKCPCB :=
  { kcp with
    interval := UInt32.ofInt
      (if interval > 5000 then 5000 else if interval < 10 then 10 else interval) }

def ikcp_nodelay (kcp : IKCPCB) (nodelay interval resend nc : Int) : IKCPCB :=
  let kcp := if nodelay ≥ 0 then
      { kcp with
        nodelay := UInt32.ofInt nodelay
        rx_minrto := int (if nodelay ≠ 0 then IKCP_RTO_NDL else IKCP_RTO_MIN) }
    else kcp
  let kcp := if interval ≥ 0 then kcp.ikcp_interval interval else kcp
  let kcp := if resend ≥ 0 then { kcp with fastresend := resend } else kcp
  if nc ≥ 0 then { kcp with nocwnd := nc } else kcp

def ikcp_wndsize (kcp : IKCPCB) (sndwnd rcvwnd : Int) : IKCPCB :=
  let kcp := if sndwnd > 0 then { kcp with snd_wnd := UInt32.ofInt sndwnd } else kcp
  if rcvwnd > 0 then { kcp with rcv_wnd := max (UInt32.ofInt rcvwnd) IKCP_WND_RCV } else kcp

def ikcp_waitsnd (kcp : IKCPCB) : Int := int (kcp.nsnd_buf + kcp.nsnd_que)

/-! ## Sending -/

/-- The loop of `ikcp_send` with `count` segments left to make. -/
def fragments (mss : Int) (stream : Int) : (count : Nat) → List Byte → Int → List IKCPSEG
  | 0, _, _ => []
  | count + 1, buffer, len =>
    let size := if len > mss then mss else len
    { frg := if stream = 0 then UInt32.ofNat count else 0, data := buffer.take size.toNat } ::
      fragments mss stream count (buffer.drop size.toNat) (len - size)

/-- What `ikcp_send` does with the last segment of the queue in streaming mode: it is replaced by
one that is filled up. The bytes that are left come with it. -/
def fillLast (kcp : IKCPCB) (buffer : List Byte) (len : Int) : IKCPCB × List Byte × Int :=
  match kcp.snd_queue.getLast? with
  | none => (kcp, buffer, len)
  | some old =>
    if old.len < kcp.mss then
      let capacity := int (kcp.mss - old.len)
      let extend := if len < capacity then len else capacity
      let seg : IKCPSEG := { frg := 0, data := old.data ++ buffer.take extend.toNat }
      ({ kcp with snd_queue := kcp.snd_queue.dropLast ++ [seg] }, buffer.drop extend.toNat,
        len - extend)
    else (kcp, buffer, len)

/-- The rest of `ikcp_send`: `len` bytes go behind the queue as segments of their own. -/
def enqueue (kcp : IKCPCB) (buffer : List Byte) (len : Int) : IKCPCB × Int :=
  let count := if len ≤ int kcp.mss then 1 else int ((UInt32.ofInt len + kcp.mss - 1) / kcp.mss)
  if count ≥ int IKCP_WND_RCV then (kcp, -2)
  else
    let count := if count = 0 then 1 else count
    let segs := fragments (int kcp.mss) kcp.stream count.toNat buffer len
    ({ kcp with
      snd_queue := kcp.snd_queue ++ segs
      nsnd_que := kcp.nsnd_que + UInt32.ofNat segs.length }, 0)

/-- `ikcp_send`, of the `len` bytes at `buffer`. -/
def ikcp_send (kcp : IKCPCB) (buffer : List Byte) (len : Int) : Option (IKCPCB × Int) :=
  if kcp.mss = 0 then none
  else if len < 0 then some (kcp, -1)
  else if kcp.stream ≠ 0 then
    let (kcp, buffer, len) := kcp.fillLast buffer len
    some (if len ≤ 0 then (kcp, 0) else kcp.enqueue buffer len)
  else some (kcp.enqueue buffer len)

/-! ## Receiving -/

/-- The segments in front up to the first one with `frg` 0, and those behind it. -/
def splitMessage : List IKCPSEG → List IKCPSEG × List IKCPSEG
  | [] => ([], [])
  | seg :: rest =>
    if seg.frg = 0 then ([seg], rest)
    else
      let (message, rest) := splitMessage rest
      (seg :: message, rest)

/-- The bytes of some segments together, as the words they are added in. -/
def totalLen (segs : List IKCPSEG) : UInt32 := (segs.map IKCPSEG.len).sum

def ikcp_peeksize (kcp : IKCPCB) : Int :=
  match kcp.rcv_queue with
  | [] => -1
  | seg :: _ =>
    if seg.frg = 0 then int seg.len
    else if kcp.nrcv_que < seg.frg + 1 then -1
    else int (totalLen (splitMessage kcp.rcv_queue).1)

/-- The first segment of `rcv_buf` goes to the end of `rcv_queue`. -/
def toQueue (kcp : IKCPCB) (seg : IKCPSEG) : IKCPCB :=
  { kcp with
    nrcv_buf := kcp.nrcv_buf - 1
    rcv_queue := kcp.rcv_queue ++ [seg]
    nrcv_que := kcp.nrcv_que + 1
    rcv_nxt := kcp.rcv_nxt + 1 }

/-- The loop that moves segments from `rcv_buf` to `rcv_queue`, with `segs` left in `rcv_buf`. -/
def moveAvailable (kcp : IKCPCB) : (segs : List IKCPSEG) → IKCPCB
  | [] => { kcp with rcv_buf := [] }
  | seg :: segs =>
    if seg.sn = kcp.rcv_nxt ∧ kcp.nrcv_que < kcp.rcv_wnd then
      moveAvailable (kcp.toQueue seg) segs
    else { kcp with rcv_buf := seg :: segs }

/-- The first message is deleted from `rcv_queue`, unless `ispeek`. -/
def dropMessage (kcp : IKCPCB) (ispeek : Bool) : IKCPCB :=
  if ispeek then kcp
  else
    { kcp with
      rcv_queue := (splitMessage kcp.rcv_queue).2
      nrcv_que := kcp.nrcv_que - UInt32.ofNat (splitMessage kcp.rcv_queue).1.length }

/-- `ikcp_recv` when the message is there and there is room for it. -/
def takeMessage (kcp : IKCPCB) (ispeek : Bool) (peeksize : Int) :
    Option (IKCPCB × Int × List Byte) :=
  let recover := kcp.nrcv_que ≥ kcp.rcv_wnd
  let message := (splitMessage kcp.rcv_queue).1
  if int (totalLen message) ≠ peeksize then none
  else
    let kcp := kcp.dropMessage ispeek
    let kcp := kcp.moveAvailable kcp.rcv_buf
    let kcp := if kcp.nrcv_que < kcp.rcv_wnd ∧ recover then
        { kcp with probe := kcp.probe ||| IKCP_ASK_TELL }
      else kcp
    some (kcp, int (totalLen message), message.flatMap IKCPSEG.data)

/-- `ikcp_recv` with room for `len` bytes, which come as the last part of the answer. With a
negative `len` it peeks. -/
def ikcp_recv (kcp : IKCPCB) (len : Int) : Option (IKCPCB × Int × List Byte) :=
  if kcp.rcv_queue = [] then some (kcp, -1, [])
  else
    (if len < 0 then checked (-len) else some len).bind fun room =>
      let peeksize := kcp.ikcp_peeksize
      if peeksize < 0 then some (kcp, -2, [])
      else if peeksize > room then some (kcp, -3, [])
      else kcp.takeMessage (len < 0) peeksize

end IKCPCB

end LearnSpace.Kcp
