import LearnSpace.Keel.LittleEndian
import LearnSpace.Keel.Serial

/-!
# Segments of the reliable UDP protocol

The constants of `ikcp.c`, its segments, and how their headers are written and read. The host is
little-endian, so that `memcpy` of a number is what the portable branch of the encoders writes.

The memory of a segment has as many bytes as its `len` says from when it is made, so `len` is
computed from `data` here.
-/

namespace LearnSpace.Kcp

open Keel

abbrev Byte := UInt8

/-! ## Constants -/

def IKCP_RTO_NDL : UInt32 := 30
def IKCP_RTO_MIN : UInt32 := 100
def IKCP_RTO_DEF : UInt32 := 200
def IKCP_RTO_MAX : UInt32 := 60000
def IKCP_CMD_PUSH : UInt32 := 81
def IKCP_CMD_ACK : UInt32 := 82
def IKCP_CMD_WASK : UInt32 := 83
def IKCP_CMD_WINS : UInt32 := 84
def IKCP_ASK_SEND : UInt32 := 1
def IKCP_ASK_TELL : UInt32 := 2
def IKCP_WND_SND : UInt32 := 32
def IKCP_WND_RCV : UInt32 := 128
def IKCP_MTU_DEF : UInt32 := 1400
def IKCP_INTERVAL : UInt32 := 100
def IKCP_OVERHEAD : UInt32 := 24
def IKCP_DEADLINK : UInt32 := 20
def IKCP_THRESH_INIT : UInt32 := 2
def IKCP_THRESH_MIN : UInt32 := 2
def IKCP_PROBE_INIT : UInt32 := 7000
def IKCP_PROBE_LIMIT : UInt32 := 120000
def IKCP_FASTACK_LIMIT : Int := 5

/-! ## Numbers -/

/-- `(int)x`, also as it happens implicitly. -/
def int (x : UInt32) : Int := x.toInt32.toInt

/-- What a signed expression comes to. On overflow it is undefined. -/
def checked (x : Int) : Option Int := if -2 ^ 31 ≤ x ∧ x < 2 ^ 31 then some x else none

theorem checked_eq {x : Int} (hmin : -2 ^ 31 ≤ x) (hmax : x < 2 ^ 31) : checked x = some x :=
  if_pos ⟨hmin, hmax⟩

/-- `_itimediff`. -/
def itimediff (later earlier : UInt32) : Int := int (later - earlier)

/-- `_ibound_`. -/
def ibound (lower middle upper : UInt32) : UInt32 := min (max lower middle) upper

/-! ## Segments -/

/-- `IKCPSEG`. The fields that are not set yet are 0. -/
structure IKCPSEG where
  conv : UInt32 := 0
  cmd : UInt32 := 0
  frg : UInt32 := 0
  wnd : UInt32 := 0
  ts : UInt32 := 0
  sn : UInt32 := 0
  una : UInt32 := 0
  resendts : UInt32 := 0
  rto : UInt32 := 0
  fastack : UInt32 := 0
  xmit : UInt32 := 0
  data : List Byte := []
  deriving DecidableEq, Repr

/-- The field `len`. -/
def IKCPSEG.len (seg : IKCPSEG) : UInt32 := UInt32.ofNat seg.data.length

/-! ## Headers -/

/-- `ikcp_encode8u`. -/
def ikcp_encode8u (c : UInt32) : List Byte := LittleEndian.bytes 1 c.toNat

/-- `ikcp_encode16u`. -/
def ikcp_encode16u (w : UInt32) : List Byte := LittleEndian.bytes 2 w.toNat

/-- `ikcp_encode32u`. -/
def ikcp_encode32u (l : UInt32) : List Byte := LittleEndian.bytes 4 l.toNat

/-- `ikcp_encode_seg`. The casts to 8 and to 16 bits are those of the bytes that are kept. -/
def ikcp_encode_seg (seg : IKCPSEG) : List Byte :=
  ikcp_encode32u seg.conv ++ ikcp_encode8u seg.cmd ++ ikcp_encode8u seg.frg ++
    ikcp_encode16u seg.wnd ++ ikcp_encode32u seg.ts ++ ikcp_encode32u seg.sn ++
    ikcp_encode32u seg.una ++ ikcp_encode32u seg.len

/-- `ikcp_decode8u`, `ikcp_decode16u` and `ikcp_decode32u`: a number of `k` bytes, and the
pointer behind it. `none` is a read behind the end of the data. -/
def decode (k : Nat) (p : List Byte) : Option (UInt32 × List Byte) :=
  if k ≤ p.length then some (UInt32.ofNat (LittleEndian.value (p.take k)), p.drop k) else none

/-- The fields of a header as `ikcp_input` reads them, `len`, and the pointer behind them. -/
def decodeSeg (data : List Byte) : Option (IKCPSEG × UInt32 × List Byte) := do
  let (conv, data) ← decode 4 data
  let (cmd, data) ← decode 1 data
  let (frg, data) ← decode 1 data
  let (wnd, data) ← decode 2 data
  let (ts, data) ← decode 4 data
  let (sn, data) ← decode 4 data
  let (una, data) ← decode 4 data
  let (len, data) ← decode 4 data
  return ({ conv, cmd, frg, wnd, ts, sn, una }, len, data)

end LearnSpace.Kcp
