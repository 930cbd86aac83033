import LearnSpace.Keel.Buffer
import LearnSpace.KvStore.ReactorMap

/-!
# The loop of `onRecv`

`onRecv` reads until a call of `recv` hands nothing over. The loop is followed here down to
the bytes: `recv` fills `_dataBuffer`, and `append` reads as many bytes of it as `size`
says, an `int` that is converted to `size_t`. With `EWOULDBLOCK` or the end of the stream
behind the chunks, `_recvBuffer` has got exactly the chunks when `recvImp` is called on it.
With any other error it is never called: the branch of `happenError` does not leave the
loop, and `append` is told to read 2^64 − 1 bytes.
-/

namespace LearnSpace.KvStore

open Keel Function

/-- What a call of `recv` answers. -/
inductive RecvResult
  | data (bytes : List Byte)
  /-- 0: the peer has closed -/
  | closed
  /-- −1 with `EWOULDBLOCK` -/
  | wouldBlock
  /-- −1 with any other `errno` -/
  | failed
  deriving DecidableEq

namespace RecvResult

/-- What the call returns. -/
def size : RecvResult → Int
  | .data bytes => bytes.length
  | .closed => 0
  | .wouldBlock => -1
  | .failed => -1

/-- `_dataBuffer` behind the call. It is zeroed in front of it. -/
def dataBuffer : RecvResult → List Byte
  | .data bytes => Pool.filled bytes bufferSize
  | _ => Pool.filled [] bufferSize

end RecvResult

/-- `_recvBuffer.append(_dataBuffer, size)`. `append` takes its length as a `size_t`. -/
def appendData (recvBuffer : Bytes) (result : RecvResult) : Option Bytes :=
  (Buffer.slice result.dataBuffer 0 (toSizeT result.size)).map recvBuffer.append

/-- What `onRecv` comes to behind its loop. -/
structure RecvDone where
  /-- the buffer `recvImp` is called on -/
  recvBuffer : Bytes
  /-- `onClose` is called behind it -/
  closes : Bool
  deriving DecidableEq

/-- The loop of `onRecv`, for the answers its calls of `recv` get. There is no result when
the answers are used up in the loop, and when `append` reads past `_dataBuffer`. -/
def onRecv (recvBuffer : Bytes) : List RecvResult → Option RecvDone
  | [] => none
  | .wouldBlock :: _ => some ⟨recvBuffer, false⟩
  | .closed :: _ => some ⟨recvBuffer, true⟩
  | .data bytes :: results =>
    (appendData recvBuffer (.data bytes)).bind fun recvBuffer => onRecv recvBuffer results
  -- the branch of `happenError` falls through to `append`
  | .failed :: results =>
    (appendData recvBuffer .failed).bind fun recvBuffer => onRecv recvBuffer results

variable {recvBuffer : Bytes} {bytes : List Byte}

/-! ## One answer -/

theorem toSizeT_of_lt {n : Nat} (h : n < 2 ^ 64) : toSizeT n = n := by
  rw [toSizeT]
  omega

/-- A chunk is appended as it was received. -/
theorem appendData_data (recvBuffer : Bytes) (h : bytes.length ≤ bufferSize) :
    appendData recvBuffer (.data bytes) = some (recvBuffer.append bytes) := by
  have hsmall : bytes.length < 2 ^ 64 := lt_of_le_of_lt h (by decide)
  have hfits : 0 + bytes.length ≤ (Pool.filled bytes bufferSize).length := by
    rw [Pool.length_filled h, Nat.zero_add]
    exact h
  rw [appendData, RecvResult.dataBuffer, RecvResult.size, toSizeT_of_lt hsmall,
    Buffer.slice_eq hfits, Option.map_some, List.drop_zero, Pool.filled, List.take_left]

/-- The −1 of an error is a length past every buffer. -/
theorem appendData_failed (recvBuffer : Bytes) : appendData recvBuffer .failed = none := by
  have hlen : toSizeT (-1) = 2 ^ 64 - 1 := by decide
  have hover : ¬ 0 + (2 ^ 64 - 1) ≤ (Pool.filled [] bufferSize).length := by
    rw [Pool.length_filled (Nat.zero_le _)]
    decide
  rw [appendData, RecvResult.dataBuffer, RecvResult.size, hlen, Buffer.slice, if_neg hover,
    Option.map_none]
  intro bytes hdata
  cases hdata

theorem onRecv_data (recvBuffer : Bytes) (h : bytes.length ≤ bufferSize)
    (results : List RecvResult) :
    onRecv recvBuffer (.data bytes :: results) = onRecv (recvBuffer.append bytes) results := by
  rw [onRecv, appendData_data recvBuffer h, Option.bind_some]

theorem onRecv_failed (recvBuffer : Bytes) (results : List RecvResult) :
    onRecv recvBuffer (.failed :: results) = none := by
  rw [onRecv, appendData_failed, Option.bind_none]

/-! ## A run of the loop -/

/-- Each chunk is some bytes, and no more than `_dataBuffer` has room for. -/
def Chunks (chunks : List (List Byte)) : Prop :=
  ∀ bytes ∈ chunks, 0 < bytes.length ∧ bytes.length ≤ bufferSize

/-- The chunks are appended one behind the other. -/
theorem onRecv_chunks {chunks : List (List Byte)} (hchunks : Chunks chunks)
    (recvBuffer : Bytes) (results : List RecvResult) :
    onRecv recvBuffer (chunks.map .data ++ results) =
      onRecv (chunks.foldl Bytes.append recvBuffer) results := by
  induction chunks generalizing recvBuffer with
  | nil => rfl
  | cons bytes chunks ih =>
      rw [List.map_cons, List.cons_append,
        onRecv_data recvBuffer (hchunks bytes List.mem_cons_self).2, List.foldl_cons]
      exact ih (fun bytes' hmem => hchunks bytes' (List.mem_cons_of_mem bytes hmem))
        (recvBuffer.append bytes)

theorem content_foldl_append (recvBuffer : Bytes) (chunks : List (List Byte)) :
    (chunks.foldl Bytes.append recvBuffer).content =
      recvBuffer.content ++ chunks.flatten := by
  induction chunks generalizing recvBuffer with
  | nil => exact (List.append_nil _).symm
  | cons bytes chunks ih =>
      rw [List.foldl_cons, ih, List.flatten_cons, ← List.append_assoc]
      rfl

/-- What `onRecv` is to do with answers that are `chunks` up to the first one, `stop`, that
hands nothing over: `recvImp` is called on the old bytes and the chunks, and `onClose`
behind it when the peer has closed. -/
def ReceivesExactly (recvBuffer : Bytes) (chunks : List (List Byte)) (stop : RecvResult)
    (rest : List RecvResult) : Prop :=
  ∃ done, onRecv recvBuffer (chunks.map .data ++ stop :: rest) = some done ∧
    done.recvBuffer.content = recvBuffer.content ++ chunks.flatten ∧
    done.closes = decide (stop = .closed)

/-- **The reads of a client.** `onRecv` delivers what was received if and only if the
answer behind the chunks is the end of the stream or `EWOULDBLOCK`. -/
theorem onRecv_exactly_iff (recvBuffer : Bytes) {chunks : List (List Byte)}
    (hchunks : Chunks chunks) {stop : RecvResult} (hstop : ∀ bytes, stop ≠ .data bytes)
    (rest : List RecvResult) :
    ReceivesExactly recvBuffer chunks stop rest ↔ stop ≠ .failed := by
  have hcontent := content_foldl_append recvBuffer chunks
  rw [ReceivesExactly, onRecv_chunks hchunks]
  cases stop with
  | data bytes => exact absurd rfl (hstop bytes)
  | closed => exact iff_of_true ⟨_, rfl, hcontent, rfl⟩ RecvResult.noConfusion
  | wouldBlock => exact iff_of_true ⟨_, rfl, hcontent, rfl⟩ RecvResult.noConfusion
  | failed =>
      rw [onRecv_failed]
      constructor
      · rintro ⟨done, hdone, -⟩
        cases hdone
      · intro h
        exact absurd rfl h

theorem onRecv_exactly_iff_close :
    ReceivesExactly .new [[1, 2], [3]] .closed [] ↔ RecvResult.closed ≠ .failed :=
  onRecv_exactly_iff .new (by unfold Chunks; decide) (fun _ => RecvResult.noConfusion) []

/-- A connection that is reset behind its first bytes. -/
theorem onRecv_reads_past :
    onRecv .new [.data [1, 2], .failed, .wouldBlock] = none ∧
      ¬ ReceivesExactly .new [[1, 2]] .failed [.wouldBlock] := by
  have hnone : onRecv .new [.data [1, 2], .failed, .wouldBlock] = none := by
    rw [onRecv_data _ (by decide), onRecv_failed]
  refine ⟨hnone, ?_⟩
  rintro ⟨done, hdone, -⟩
  rw [List.map_cons, List.map_nil, List.singleton_append, hnone] at hdone
  cases hdone

/-! ## The handler of the server -/

/-- The answers of one `onRecv`, in a list. -/
def Received.results : Received → List RecvResult
  | .data bytes more => .data bytes :: more.results
  | .wouldBlock => [.wouldBlock]
  | .closed => [.closed]
  | .failed => [.failed]

namespace ReactorServer

variable {s : ReactorServer} {p : Ptr} {c : KVTcpClient} {answer : Received}

/-- A chunk is appended to the buffer of the object, and the handler goes on. -/
theorem onRecv_appended (hc : s.objects.cell p = some c) (bytes : List Byte) (more : Received) :
    ∃ objects : Heap KVTcpClient,
      objects.cell =
        update s.objects.cell p (some { c with recvBuffer := c.recvBuffer.append bytes }) ∧
      objects.cell p = some { c with recvBuffer := c.recvBuffer.append bytes } ∧
      s.onRecv p (.data bytes more) = { s with objects := objects }.onRecv p more := by
  obtain ⟨objects, hstore, hcell⟩ :=
    store_eq hc { c with recvBuffer := c.recvBuffer.append bytes }
  refine ⟨objects, hcell, by rw [hcell, update_self], ?_⟩
  rw [ReactorServer.onRecv, appendReceived, deref_eq hc, hstore]
  rfl

/-- What the handler does behind a loop that came to an end: the buffer of the object is
the one of the loop, `recvImp` is called, and `onClose` when the peer has closed. -/
theorem onRecv_done (hc : s.objects.cell p = some c) (hfits : answer.Fits) {done : RecvDone}
    (hdone : KvStore.onRecv c.recvBuffer answer.results = some done) :
    ∃ objects : Heap KVTcpClient,
      objects.cell =
        update s.objects.cell p (some { c with recvBuffer := done.recvBuffer }) ∧
      s.onRecv p answer =
        let r := { s with objects := objects }.recvImp p
        if done.closes then andThen r fun s => s.onClose p else r := by
  induction answer generalizing s c with
  | data bytes more ih =>
      rw [Received.results, onRecv_data _ hfits.2.1] at hdone
      obtain ⟨objects, hcell, hc', hmore⟩ := onRecv_appended hc bytes more
      have hc' : ({ s with objects := objects } : ReactorServer).objects.cell p = _ := hc'
      obtain ⟨objects', hcell', hend⟩ := ih hc' hfits.2.2 hdone
      refine ⟨objects', ?_, hmore.trans hend⟩
      rw [hcell', hcell, update_idem]
  | wouldBlock =>
      cases hdone
      exact ⟨s.objects, (update_eq_self_iff.mpr hc.symm).symm, rfl⟩
  | closed =>
      cases hdone
      exact ⟨s.objects, (update_eq_self_iff.mpr hc.symm).symm, rfl⟩
  | failed =>
      rw [Received.results, onRecv_failed] at hdone
      cases hdone

/-- Where the loop has no result, the handler has no defined behaviour. -/
theorem onRecv_undefined (hc : s.objects.cell p = some c) (hfits : answer.Fits)
    (hnone : KvStore.onRecv c.recvBuffer answer.results = none) :
    (s.onRecv p answer).2 = .undefined := by
  induction answer generalizing s c with
  | data bytes more ih =>
      rw [Received.results, onRecv_data _ hfits.2.1] at hnone
      obtain ⟨objects, -, hc', hmore⟩ := onRecv_appended hc bytes more
      have hc' : ({ s with objects := objects } : ReactorServer).objects.cell p = _ := hc'
      rw [hmore]
      exact ih hc' hfits.2.2 hnone
  | wouldBlock => cases hnone
  | closed => cases hnone
  | failed =>
      rw [ReactorServer.onRecv, happenError, deref_eq hc]
      split
      · obtain ⟨objects, hstore, -⟩ :=
          store_eq (s := s.close c.fd) hc { c with fd := -1 }
        rw [hstore]
        rfl
      · rfl

end ReactorServer

end LearnSpace.KvStore
