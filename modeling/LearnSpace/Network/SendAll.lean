import Mathlib.Algebra.Group.Int.Defs
import LearnSpace.ByteArrays.Edits
import LearnSpace.Keel.Fuel
import LearnSpace.Network.ByteArray

/-!
# Sending an array

`CMSocket::sendAll` in front of the transport: it calls `::send` for what is left of the array
until all of it is sent, or a call answers 0 or an error that is not `WSAEWOULDBLOCK`, after
which the socket is closed.

Each call begins where the bytes accepted so far end (`Passed`), so whatever the calls answer,
the bytes accepted are the first ones of the array, and as many as `sendAll` returns
(`sendAll_sends`).
-/

namespace LearnSpace.Network

open Keel Keel.Fuel
open KvStore (Byte readAt)

/-- A handle. -/
abbrev SOCKET := UInt64

/-- `(SOCKET)(~0)`. -/
def INVALID_SOCKET : SOCKET := 0xFFFFFFFFFFFFFFFF

/-- The error of a call that would have to wait. -/
def WSAEWOULDBLOCK : Int := 10035

/-- What a call of `::send` returns, and `WSAGetLastError` behind it. -/
structure SendResult where
  ret : Int
  lastError : Int
  deriving DecidableEq

/-- A call of `::send`. -/
structure SendCall where
  socket : SOCKET
  /-- where the range begins in the array -/
  offset : Nat
  /-- the `int` that the length of the range is passed as -/
  len : Int
  /-- the bytes that are accepted -/
  bytes : List Byte
  deriving DecidableEq

/-- The length of the range, which is negative as an `int` from 2^31 on. -/
def SendCall.count (call : SendCall) : Nat := (call.len % (uintSize : Int)).toNat

/-- The places in the array of the bytes that are accepted. -/
def SendCall.places (call : SendCall) : List Nat := List.range' call.offset call.bytes.length

/-- The answers of the calls to come, and the calls that were made. -/
structure Transport where
  results : List SendResult
  sends : List SendCall
  /-- the handles `closesocket` was called on -/
  closed : List SOCKET
  deriving DecidableEq

/-- The fields of a `CMSocket` that its calls use. The top of `m_error` is in front. -/
structure CMSocket where
  socket : SOCKET
  error : List String
  deriving DecidableEq

/-- `isValidSocket`. -/
def CMSocket.isValidSocket (s : CMSocket) : Bool := s.socket != INVALID_SOCKET

/-- A socket, the transport and the arrays. -/
structure Endpoint (ι : Type) where
  socket : CMSocket
  transport : Transport
  arrays : State ι

/-- The text of a call that answers 0. -/
def disconnectError : String := "Socket disconnect:"

/-- The text of a call that fails. -/
def sendError (error : Int) : String := "Send error:" ++ toString error

/-- A `uint` as an `int`. -/
def toInt (n : Nat) : Int := (n : Int).bmod uintSize

namespace Endpoint

variable {ι : Type}

/-- A call of `::send`, of `len` bytes at `&dataBuffer[offset]`. There is none when the answers
are used up. -/
def send (c : Endpoint ι) (dataBuffer : Ptr) (offset : Nat) (len : Int) :
    Option (SendResult × Endpoint ι) :=
  match c.transport.results with
  | [] => none
  | result :: results => do
    let bytes ← readAt c.arrays.buffers dataBuffer offset result.ret.toNat
    return (result,
      { c with
        transport.results := results
        transport.sends := c.transport.sends ++ [⟨c.socket.socket, offset, len, bytes⟩] })

/-- `m_error.push`. -/
def pushError (c : Endpoint ι) (text : String) : Endpoint ι :=
  { c with socket.error := text :: c.socket.error }

/-- `CMSocket::close`. -/
def close (c : Endpoint ι) : Endpoint ι :=
  { c with
    socket.socket := INVALID_SOCKET
    transport.closed := c.transport.closed ++ [c.socket.socket] }

/-- `while (sendSize < size)`, behind an iteration. -/
def whileLess (size : Nat) (c : Endpoint ι) (sendSize : Nat) :
    (Endpoint ι × Nat) ⊕ (Endpoint ι × Nat) :=
  if sendSize < size then .inl (c, sendSize) else .inr (c, sendSize)

/-- An iteration of the loop of `sendAll`. -/
def sendTurn (dataBuffer : Ptr) (size : Nat) (s : Endpoint ι × Nat) :
    Option ((Endpoint ι × Nat) ⊕ (Endpoint ι × Nat)) := do
  let (c, sendSize) := s
  let (result, c) ← c.send dataBuffer sendSize (toInt ((size + uintSize - sendSize) % uintSize))
  if result.ret = 0 then
    return .inr ((c.pushError disconnectError).close, sendSize)
  else if result.ret < 0 then
    if result.lastError = WSAEWOULDBLOCK then
      -- `Sleep(1)` leaves everything as it is
      return c.whileLess size sendSize
    else
      return .inr ((c.pushError (sendError result.lastError)).close, sendSize)
  else
    return c.whileLess size ((sendSize + result.ret.toNat) % uintSize)

/-- `sendAll`. -/
def sendAll (fuel : Nat) (x : ι) (c : Endpoint ι) : Option (Endpoint ι × Nat) :=
  if c.socket.isValidSocket then do
    let (dataBuffer, size) ← c.arrays.data x
    loop (sendTurn dataBuffer size) fuel (c, 0)
  else some (c, uintSize - 1)

end Endpoint

/-! ## What is passed on -/

variable {ι : Type} {c c₀ : Endpoint ι} {content : List Byte} {calls : List SendCall}
  {left sendSize : Nat} {result : SendResult} {results rest : List SendResult} {p : Ptr} {x : ι}

/-- The calls accepted the first `sendSize` bytes, each of them once and in its place, and no
range reaches over the end of the array. -/
structure Passed (content : List Byte) (calls : List SendCall) (sendSize : Nat) : Prop where
  bytes : calls.flatMap SendCall.bytes = content.take sendSize
  places : calls.flatMap SendCall.places = List.range sendSize
  inside : ∀ call ∈ calls, call.offset + call.count ≤ content.length

theorem Passed.nil (content : List Byte) : Passed content [] 0 :=
  ⟨rfl, rfl, fun _ hcall => absurd hcall List.not_mem_nil⟩

/-- One more call, where the last one ended. -/
theorem Passed.concat (h : Passed content calls sendSize) {call : SendCall} {n : Nat}
    (hoffset : call.offset = sendSize) (hbytes : call.bytes = (content.drop sendSize).take n)
    (hcount : call.count = content.length - sendSize) (hn : sendSize + n ≤ content.length) :
    Passed content (calls ++ [call]) (sendSize + n) where
  bytes := by
    rw [List.flatMap_append, h.bytes, List.flatMap_singleton, hbytes, List.take_add]
  places := by
    have hlength : call.bytes.length = n := by
      rw [hbytes, List.length_take, List.length_drop]
      omega
    rw [List.flatMap_append, h.places, List.flatMap_singleton, SendCall.places, hoffset, hlength,
      List.range_eq_range', List.range_eq_range', ← List.range'_append_1, Nat.zero_add]
  inside := by
    intro call' hcall
    rcases List.mem_append.mp hcall with hold | hnew
    · exact h.inside call' hold
    · rw [List.mem_singleton.mp hnew, hoffset, hcount]
      omega

/-- The length arrives as it was passed. -/
theorem count_toInt (socket : SOCKET) (offset : Nat) {n : Nat} (bytes : List Byte)
    (hn : n < uintSize) : SendCall.count ⟨socket, offset, toInt n, bytes⟩ = n := by
  rw [SendCall.count]
  dsimp only
  rw [toInt, Int.bmod_emod, Int.emod_eq_of_lt (Int.natCast_nonneg n) (by omega),
    Int.toNat_natCast]

/-- A part of what can be read. -/
theorem readAt_part {h : Heap (List Byte)} {len off n : Nat}
    (hread : readAt h p 0 len = some content) (hfits : off + n ≤ content.length) :
    readAt h p off n = some ((content.drop off).take n) := by
  by_cases hlen : len = 0
  · rw [readAt, if_pos hlen] at hread
    cases hread
    have hzero : n = 0 := by
      rw [List.length_nil] at hfits
      omega
    rw [hzero, readAt, if_pos rfl, List.take_zero]
  · rw [readAt, if_neg hlen, Option.bind_eq_bind, Option.bind_eq_some_iff] at hread
    obtain ⟨b, hcell, hslice⟩ := hread
    have hlength := Buffer.length_slice hslice
    rw [Buffer.slice] at hslice
    split at hslice
    · rename_i hinside
      cases hslice
      rw [KvStore.readAt_eq hcell (by omega), List.drop_zero, List.drop_take, List.take_take,
        Nat.min_eq_left (by omega)]
    · cases hslice

/-! ## One answer -/

/-- The answers end the call: each accepts no more than is left, and only with the last one all
is sent, or the connection is at its end. -/
inductive Brings : Nat → List SendResult → Prop
  | all {left : Nat} {result : SendResult} (h : result.ret = left) : Brings left [result]
  | part {left : Nat} {result : SendResult} {results : List SendResult}
      (hpos : 0 < result.ret) (hless : result.ret < left)
      (h : Brings (left - result.ret.toNat) results) : Brings left (result :: results)
  | wouldBlock {left : Nat} {result : SendResult} {results : List SendResult}
      (hneg : result.ret < 0) (herror : result.lastError = WSAEWOULDBLOCK)
      (h : Brings left results) : Brings left (result :: results)
  | disconnect {left : Nat} {result : SendResult} (h : result.ret = 0) : Brings left [result]
  | failed {left : Nat} {result : SendResult} (hneg : result.ret < 0)
      (herror : result.lastError ≠ WSAEWOULDBLOCK) : Brings left [result]

/-- The array can be read, and `sendAll` has come as far in it as `sendSize`. -/
structure Sending (p : Ptr) (content : List Byte) (c : Endpoint ι) (calls : List SendCall)
    (sendSize : Nat) : Prop where
  read : readAt c.arrays.buffers p 0 content.length = some content
  small : content.length < uintSize
  less : sendSize < content.length
  passed : Passed content calls sendSize

/-- The endpoint behind a call of `::send`. -/
def sentTo (c : Endpoint ι) (call : SendCall) (results : List SendResult) : Endpoint ι :=
  { c with transport.results := results, transport.sends := c.transport.sends ++ [call] }

/-- A call of `::send` that accepts no more than is left. -/
theorem Sending.send (h : Sending p content c calls sendSize)
    (hresults : c.transport.results = result :: results)
    (hle : sendSize + result.ret.toNat ≤ content.length) :
    ∃ call, c.send p sendSize (toInt ((content.length + uintSize - sendSize) % uintSize)) =
        some (result, sentTo c call results) ∧
      Passed content (calls ++ [call]) (sendSize + result.ret.toNat) := by
  have hless := h.less
  have hsmall : content.length - sendSize < uintSize :=
    Nat.lt_of_le_of_lt (Nat.sub_le _ _) h.small
  have hleft : (content.length + uintSize - sendSize) % uintSize = content.length - sendSize := by
    have hsub : content.length + uintSize - sendSize = content.length - sendSize + uintSize := by
      omega
    rw [hsub, Nat.add_mod_right, Nat.mod_eq_of_lt hsmall]
  rw [hleft]
  refine ⟨⟨c.socket.socket, sendSize, toInt (content.length - sendSize),
    (content.drop sendSize).take result.ret.toNat⟩, ?_, h.passed.concat rfl rfl ?_ hle⟩
  · rw [Endpoint.send, hresults]
    simp only [readAt_part h.read hle, Option.bind_eq_bind, Option.bind_some, Option.pure_def]
    rfl
  · exact count_toInt _ _ _ hsmall

/-- What an iteration makes of the answer. -/
theorem Sending.turn (h : Sending p content c calls sendSize)
    (hresults : c.transport.results = result :: results)
    (hle : sendSize + result.ret.toNat ≤ content.length) :
    ∃ call, Passed content (calls ++ [call]) (sendSize + result.ret.toNat) ∧
      Endpoint.sendTurn p content.length (c, sendSize) = some (
        if result.ret = 0 then
          .inr (((sentTo c call results).pushError disconnectError).close, sendSize)
        else if result.ret < 0 then
          if result.lastError = WSAEWOULDBLOCK then .inl (sentTo c call results, sendSize)
          else
            .inr (((sentTo c call results).pushError (sendError result.lastError)).close, sendSize)
        else (sentTo c call results).whileLess content.length (sendSize + result.ret.toNat)) := by
  obtain ⟨call, hsend, hpassed⟩ := h.send hresults hle
  refine ⟨call, hpassed, ?_⟩
  have hsum : (sendSize + result.ret.toNat) % uintSize = sendSize + result.ret.toNat :=
    Nat.mod_eq_of_lt (Nat.lt_of_le_of_lt hle h.small)
  have hless : (sentTo c call results).whileLess content.length sendSize =
      .inl (sentTo c call results, sendSize) := if_pos h.less
  rw [Endpoint.sendTurn]
  simp only [hsend, hsum, hless, Option.bind_eq_bind, Option.bind_some, Option.pure_def]
  split
  · rfl
  · split
    · split <;> rfl
    · rfl

/-! ## All answers -/

/-- The socket has been left as it was. -/
structure Kept (c c' : Endpoint ι) : Prop where
  socket : c'.socket = c.socket
  closed : c'.transport.closed = c.transport.closed

/-- The socket has been closed, and an error says why. -/
structure Closed (c c' : Endpoint ι) : Prop where
  socket : c'.socket.socket = INVALID_SOCKET
  error : ∃ text, c'.socket.error = text :: c.socket.error
  closed : c'.transport.closed = c.transport.closed ++ [c.socket.socket]

/-- `sendAll` returns `sendSize`, with the calls it had made before and those it makes from `c`
on. -/
structure Returns (content : List Byte) (c : Endpoint ι) (calls : List SendCall)
    (rest : List SendResult) (c' : Endpoint ι) (sendSize : Nat) : Prop where
  results : c'.transport.results = rest
  sends : ∃ calls', c'.transport.sends = c.transport.sends ++ calls' ∧
    Passed content (calls ++ calls') sendSize
  ends : (sendSize = content.length ∧ Kept c c') ∨ (sendSize < content.length ∧ Closed c c')

/-- One call before the others. -/
theorem Returns.cons {c' : Endpoint ι} {call : SendCall}
    (h : Returns content (sentTo c call results) (calls ++ [call]) rest c' sendSize) :
    Returns content c calls rest c' sendSize where
  results := h.results
  sends := by
    obtain ⟨calls', hsends, hpassed⟩ := h.sends
    refine ⟨call :: calls', ?_, ?_⟩
    · rw [hsends, sentTo, List.append_assoc, List.singleton_append]
    · rwa [List.append_assoc, List.singleton_append] at hpassed
  ends := by
    rcases h.ends with ⟨hall, hkept⟩ | ⟨hless, hclosed⟩
    · exact .inl ⟨hall, hkept.socket, hkept.closed⟩
    · exact .inr ⟨hless, hclosed.socket, hclosed.error, hclosed.closed⟩

/-- The last call of all. -/
theorem Passed.returns {call : SendCall} (h : Passed content (calls ++ [call]) sendSize)
    (hall : sendSize = content.length) :
    Returns content c calls rest (sentTo c call rest) sendSize where
  results := rfl
  sends := ⟨[call], rfl, h⟩
  ends := .inl ⟨hall, rfl, rfl⟩

theorem Passed.returns_close {call : SendCall} (h : Passed content (calls ++ [call]) sendSize)
    (hless : sendSize < content.length) (text : String) :
    Returns content c calls rest ((sentTo c call rest).pushError text).close sendSize where
  results := rfl
  sends := ⟨[call], rfl, h⟩
  ends := .inr ⟨hless, rfl, ⟨text, rfl⟩, rfl⟩

/-- From `c` on the loop takes one iteration for each answer, and returns. -/
def Comes (p : Ptr) (content : List Byte) (c : Endpoint ι) (calls : List SendCall)
    (sendSize : Nat) (results rest : List SendResult) : Prop :=
  ∃ c' sendSize', Returns content c calls rest c' sendSize' ∧
    ∀ fuel, loop (Endpoint.sendTurn p content.length) (results.length + fuel) (c, sendSize) =
      some (c', sendSize')

theorem Comes.next {call : SendCall} {sendSize' : Nat}
    (hturn : Endpoint.sendTurn p content.length (c, sendSize) =
      some (.inl (sentTo c call (results ++ rest), sendSize')))
    (h : Comes p content (sentTo c call (results ++ rest)) (calls ++ [call]) sendSize' results
      rest) : Comes p content c calls sendSize (result :: results) rest := by
  obtain ⟨c', sendSize'', hreturns, hloop⟩ := h
  refine ⟨c', sendSize'', hreturns.cons, fun fuel => ?_⟩
  rw [List.length_cons, Nat.add_right_comm, loop_next hturn]
  exact hloop fuel

theorem Comes.last {c' : Endpoint ι} {sendSize' : Nat}
    (hturn : Endpoint.sendTurn p content.length (c, sendSize) = some (.inr (c', sendSize')))
    (h : Returns content c calls rest c' sendSize') :
    Comes p content c calls sendSize [result] rest := by
  refine ⟨c', sendSize', h, fun fuel => ?_⟩
  rw [List.length_singleton, Nat.add_comm]
  exact loop_leave hturn fuel

/-- From any point on: by induction on the answers. -/
theorem Sending.comes (h : Sending p content c calls sendSize)
    (hbrings : Brings (content.length - sendSize) results)
    (hresults : c.transport.results = results ++ rest) :
    Comes p content c calls sendSize results rest := by
  have hless := h.less
  generalize hleft : content.length - sendSize = left at hbrings
  induction hbrings generalizing c calls sendSize with
  | @all left result hret =>
      obtain ⟨call, hpassed, hturn⟩ := h.turn hresults (by omega)
      have hall : sendSize + result.ret.toNat = content.length := by omega
      rw [if_neg (by omega), if_neg (by omega), Endpoint.whileLess, if_neg (by omega)] at hturn
      exact .last hturn (hpassed.returns hall)
  | @part left result results hpos hmore _ ih =>
      obtain ⟨call, hpassed, hturn⟩ := h.turn hresults (by omega)
      have hless' : sendSize + result.ret.toNat < content.length := by omega
      rw [if_neg (by omega), if_neg (by omega), Endpoint.whileLess, if_pos hless'] at hturn
      have h' : Sending p content (sentTo c call (results ++ rest)) (calls ++ [call])
          (sendSize + result.ret.toNat) := ⟨h.read, h.small, hless', hpassed⟩
      exact .next hturn (ih h' rfl hless' (by omega))
  | @wouldBlock left result results hneg herror _ ih =>
      have hzero : result.ret.toNat = 0 := by omega
      obtain ⟨call, hpassed, hturn⟩ := h.turn hresults (by omega)
      rw [if_neg (by omega), if_pos hneg, if_pos herror] at hturn
      rw [hzero, Nat.add_zero] at hpassed
      have h' : Sending p content (sentTo c call (results ++ rest)) (calls ++ [call]) sendSize :=
        ⟨h.read, h.small, hless, hpassed⟩
      exact .next hturn (ih h' rfl hless hleft)
  | @disconnect left result hret =>
      have hzero : result.ret.toNat = 0 := by omega
      obtain ⟨call, hpassed, hturn⟩ := h.turn hresults (by omega)
      rw [if_pos hret] at hturn
      rw [hzero, Nat.add_zero] at hpassed
      exact .last hturn (hpassed.returns_close hless disconnectError)
  | @failed left result hneg herror =>
      have hzero : result.ret.toNat = 0 := by omega
      obtain ⟨call, hpassed, hturn⟩ := h.turn hresults (by omega)
      rw [if_neg (by omega), if_pos hneg, if_neg herror] at hturn
      rw [hzero, Nat.add_zero] at hpassed
      exact .last hturn (hpassed.returns_close hless (sendError result.lastError))

/-- **A prefix, and its length.** For every valid socket, every array that is not empty and all
answers of `::send` that bring the call to its end, the bytes accepted over all calls are the
first ones of the array, as many as `sendAll` returns, and each of them once and in its place;
no range reaches over the end of the array. The socket has been closed if they are not all of
the array, and is as before if they are. -/
theorem sendAll_sends (hvalid : c.socket.isValidSocket = true)
    (hcontent : c.arrays.content x = some content) (hsmall : content.length < uintSize)
    (hne : content ≠ []) (hbrings : Brings content.length results)
    (hresults : c.transport.results = results ++ rest) :
    ∃ c' sendSize calls, (∀ fuel, results.length ≤ fuel →
        c.sendAll fuel x = some (c', sendSize)) ∧
      c'.transport.results = rest ∧ c'.transport.sends = c.transport.sends ++ calls ∧
      calls.flatMap SendCall.bytes = content.take sendSize ∧
      calls.flatMap SendCall.places = List.range sendSize ∧
      (∀ call ∈ calls, call.offset + call.count ≤ content.length) ∧
      ((sendSize = content.length ∧ Kept c c') ∨ (sendSize < content.length ∧ Closed c c')) := by
  rw [State.content, Option.bind_eq_bind, Option.bind_eq_some_iff] at hcontent
  obtain ⟨⟨p, size⟩, hdata, hread⟩ := hcontent
  obtain rfl : content.length = size := ByteArrays.length_readAt hread
  have hstart : Sending p content c [] 0 :=
    ⟨hread, hsmall, List.length_pos_iff.mpr hne, .nil content⟩
  obtain ⟨c', sendSize, hreturns, hloop⟩ := hstart.comes hbrings hresults
  obtain ⟨calls, hsends, hpassed⟩ := hreturns.sends
  refine ⟨c', sendSize, calls, fun fuel hfuel => ?_, hreturns.results, hsends, hpassed.bytes,
    hpassed.places, hpassed.inside, hreturns.ends⟩
  obtain ⟨more, rfl⟩ := Nat.exists_eq_add_of_le hfuel
  rw [Endpoint.sendAll, if_pos hvalid, hdata, Option.bind_eq_bind, Option.bind_some]
  exact hloop more

/-- An array of three bytes, of which the transport accepts two. -/
def endpointHi : Endpoint (Fin 1) where
  socket := ⟨7, []⟩
  transport := ⟨[⟨-1, 10035⟩, ⟨2, 0⟩, ⟨-1, 10054⟩, ⟨1, 0⟩], [], []⟩
  arrays :=
    { buffers := (Heap.empty.alloc [72, 105, 33]).2
      counters := (Heap.empty.alloc 1).2
      var _ := some { buffer := 1, bufferLen := 3, size := 3, useCount := 1 } }

theorem sendAll_sends_hi :
    ∃ c' sendSize calls, (∀ fuel, 3 ≤ fuel → endpointHi.sendAll fuel 0 = some (c', sendSize)) ∧
      c'.transport.results = [⟨1, 0⟩] ∧ c'.transport.sends = [] ++ calls ∧
      calls.flatMap SendCall.bytes = [72, 105, 33].take sendSize ∧
      calls.flatMap SendCall.places = List.range sendSize ∧
      (∀ call ∈ calls, call.offset + call.count ≤ 3) ∧
      ((sendSize = 3 ∧ Kept endpointHi c') ∨ (sendSize < 3 ∧ Closed endpointHi c')) := by
  have hbrings : Brings 3 [⟨-1, 10035⟩, ⟨2, 0⟩, ⟨-1, 10054⟩] :=
    .wouldBlock (by decide) rfl (.part (by decide) (by decide) (.failed (by decide) (by decide)))
  have hcontent : endpointHi.arrays.content 0 = some [72, 105, 33] := rfl
  exact sendAll_sends rfl hcontent (by decide) (by decide) hbrings rfl

end LearnSpace.Network
