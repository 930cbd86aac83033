import LearnSpace.TcpServer.Socket

/-!
# The reply of the echo server

What `EchoTcpServer::start` does with a client's socket that can be read: it reads all there
is, forgets the socket if it has been closed, and otherwise puts `"Recv To:"` in front of the
message and sends it back.

`prepend` moves the message within its buffer by the eight bytes of the prefix, with `memcpy`.
The ranges overlap exactly if the message is longer than the prefix, whether the buffer was
large enough before or is a new one (`echo_iff`).
-/

namespace LearnSpace.TcpServer

open Keel Keel.Fuel KvStore ByteArrays

/-- `"Recv To:"`. -/
def recvTo : List Byte := [82, 101, 99, 118, 32, 84, 111, 58]

/-- What becomes of an event. -/
inductive Reaction
  /-- the socket is erased from `_clSockets` -/
  | erased
  /-- there was no byte to read -/
  | idle
  | replied
  /-- an exception leaves `start` -/
  | threw (answer : Answer)
  deriving DecidableEq

variable {ι : Type} [Fintype ι] [DecidableEq ι]

/-- The body of the loop of `start` for an event of a client's socket; `x` is the array `msg`. -/
def Conn.onReadable (fuel : Nat) (x : ι) (c : Conn ι) : Option (Conn ι × Reaction) := do
  let (c, answer) ← c.readAll fuel x
  if answer ≠ .done then
    return (c, .threw answer)
  if ¬ c.socket.isConnect then
    return (c, .erased)
  if c.pool.size x = 0 then
    return (c, .idle)
  let (pool, answer) ← Copy.tcpServer.insertElementApart c.pool x 0 (.bytes (recvTo ++ [0]))
    (strlen (recvTo ++ [0]))
  let c := { c with pool := pool }
  if answer ≠ .done then
    return (c, .threw answer)
  let (c, _) ← c.send x
  return (c, .replied)

variable {c c' : Conn ι} {x : ι} {chunks : List (List Byte)} {rest : List RecvResult}
  {result : SendResult} {results : List SendResult} {msg : List Byte}

/-! ## The parts of the handler -/

/-- More fuel does no harm. -/
theorem readAll_mono {fuel : Nat} {r : Conn ι × Answer} (h : c.readAll fuel x = some r)
    (k : Nat) : c.readAll (fuel + k) x = some r := by
  rw [Conn.readAll] at h ⊢
  split at h
  · exact loop_mono h k
  · cases h

/-- There is one result. -/
theorem readAll_unique {n fuel : Nat} {r r' : Conn ι × Answer}
    (hread : ∀ k, c.readAll (n + (k + 2)) x = some r) (h : c.readAll fuel x = some r') :
    r' = r := by
  have h₁ := readAll_mono h (n + 2)
  have h₂ := hread fuel
  have heq : fuel + (n + 2) = n + (fuel + 2) := by omega
  rw [heq, h₂] at h₁
  exact (Option.some.inj h₁).symm

theorem slice_recvTo :
    Buffer.slice (recvTo ++ [0]) 0 (strlen (recvTo ++ [0])) = some recvTo := by decide

omit [DecidableEq ι] in
/-- `send` passes on the array. -/
theorem send_passes (hconn : c.socket.isConnect = true)
    (hholds : Holds c.pool x msg) (hsends : c.kernel.sends = result :: results) :
    ∃ c' n, c.send x = some (c', n) ∧
      c'.kernel.passed = c.kernel.passed ++ [(c.socket.fd, msg)] := by
  -- where the socket is disconnected behind the call
  have hkeeps : ∀ c' : Conn ι, c'.kernel.passed = c.kernel.passed ++ [(c.socket.fd, msg)] →
      c'.disconnect.kernel.passed = c.kernel.passed ++ [(c.socket.fd, msg)] := by
    intro c' hpassed
    rw [(disconnect_keeps c').2]
    exact hpassed
  rw [Conn.send, if_neg (not_not_intro hconn)]
  simp only [hholds.read, Kernel.send, hsends, Option.bind_eq_bind, Option.bind_some]
  cases result with
  | sent count =>
      cases count with
      | zero => exact ⟨_, _, rfl, hkeeps _ rfl⟩
      | succ count => exact ⟨_, _, rfl, rfl⟩
  | failed errno =>
      dsimp only
      split
      · exact ⟨_, _, rfl, rfl⟩
      · exact ⟨_, _, rfl, hkeeps _ rfl⟩

/-! ## The reply -/

/-- The message is answered with the prefix and the message, and every copy on the way has its
ranges inside their buffers and apart. -/
def Echoes (x : ι) (c : Conn ι) (msg : List Byte) : Prop :=
  ∃ fuel c', c.onReadable fuel x = some (c', .replied) ∧
    c'.kernel.passed = c.kernel.passed ++ [(c.socket.fd, recvTo ++ msg)]

/-- The socket is connected and the kernel has chunks to hand over that are not all there will
be, and answers a call of `send`. -/
structure Receives (x : ι) (c : Conn ι) (chunks : List (List Byte)) : Prop where
  connected : c.socket.isConnect = true
  fd : c.socket.fd ≠ -1
  others : OthersLive c.pool x
  bounded : ∀ bytes ∈ chunks, 0 < bytes.length ∧ bytes.length ≤ bufferSize
  recvs : ∃ rest, c.kernel.recvs = chunks.map .data ++ .failed EWOULDBLOCK :: rest
  sends : ∃ result results, c.kernel.sends = result :: results

/-- `readAll` hands over the message. -/
theorem Receives.readsAll (h : Receives x c chunks) :
    ∃ c₁, (∀ fuel, c.readAll (chunks.length + (fuel + 2)) x = some (c₁, .done)) ∧
      StillOpen c c₁ ∧ Holds c₁.pool x chunks.flatten ∧ c₁.kernel.sends = c.kernel.sends ∧
      c₁.kernel.passed = c.kernel.passed := by
  obtain ⟨rest, hrecvs⟩ := h.recvs
  obtain ⟨c₁, hreads, hread⟩ := readAll_readsAll h.connected h.fd h.others
    (fun b hb => (h.bounded b hb).2) (by simp) hrecvs
  exact ⟨c₁, hread, hreads.open_iff.mpr rfl, hreads.holds, hreads.others.1, hreads.others.2⟩

/-- A message as long as the prefix or shorter. -/
theorem Receives.echoes (h : Receives x c chunks) (hne : chunks.flatten ≠ [])
    (hshort : chunks.flatten.length ≤ recvTo.length) : Echoes x c chunks.flatten := by
  obtain ⟨c₁, hread, hopen, hholds, hsends₁, hpassed₁⟩ := h.readsAll
  obtain ⟨result, results, hsends⟩ := h.sends
  obtain ⟨pool, hprepend, hholds₂, -, -⟩ := hholds.prepend slice_recvTo hshort
  obtain ⟨c₂, n, hsend, hpassed₂⟩ := send_passes (c := { c₁ with pool := pool })
    hopen.connected hholds₂ (hsends₁.trans hsends)
  have hsize : c₁.pool.size x ≠ 0 := by
    rw [hholds.size]
    exact fun hzero => hne (List.eq_nil_of_length_eq_zero hzero)
  refine ⟨chunks.length + (0 + 2), c₂, ?_, ?_⟩
  · simp only [Conn.onReadable, hread 0, Option.bind_eq_bind, Option.bind_some, hopen.connected,
      hsize, hprepend, hsend]
    simp
  · rw [hpassed₂, hopen.fd, ← hpassed₁]

/-- A longer one is moved over itself. -/
theorem Receives.overlaps (h : Receives x c chunks)
    (hlong : recvTo.length < chunks.flatten.length) (fuel : Nat) :
    c.onReadable fuel x = none := by
  obtain ⟨c₁, hread, hopen, hholds, -, -⟩ := h.readsAll
  cases hfuel : c.readAll fuel x with
  | none => rw [Conn.onReadable, hfuel]; rfl
  | some r =>
      obtain rfl := readAll_unique hread hfuel
      have hsize : c₁.pool.size x ≠ 0 := by
        rw [hholds.size]
        omega
      have hlen : strlen (recvTo ++ [0]) < chunks.flatten.length := hlong
      simp only [Conn.onReadable, hfuel, Option.bind_eq_bind, Option.bind_some, hopen.connected,
        hsize, hholds.prepend_overlaps hlen]
      simp

/-- **The echo.** Every message that is received, in whatever chunks, is answered with the
prefix and the message, and with copies that `memcpy` can make, if and only if it is not longer
than the prefix. -/
theorem echo_iff (h : Receives x c chunks) (hne : chunks.flatten ≠ []) :
    Echoes x c chunks.flatten ↔ chunks.flatten.length ≤ 8 := by
  constructor
  · rintro ⟨fuel, c', hrun, -⟩
    by_contra hlong
    have hnone := h.overlaps (Nat.lt_of_not_le hlong) fuel
    rw [hrun] at hnone
    cases hnone
  · exact h.echoes hne

/-- A socket with the chunks to read. -/
def connWith (chunks : List (List Byte)) : Conn (Fin 1) where
  socket := ⟨7, [], true, []⟩
  kernel := ⟨chunks.map .data ++ [.failed EWOULDBLOCK], [.sent 1], [], [], []⟩
  pool := .empty

theorem receives_connWith {chunks : List (List Byte)}
    (hchunks : ∀ bytes ∈ chunks, 0 < bytes.length ∧ bytes.length ≤ bufferSize) :
    Receives 0 (connWith chunks) chunks :=
  ⟨rfl, (by decide : (7 : Int) ≠ -1), fun _ _ => .inl rfl, hchunks, ⟨[], rfl⟩, .sent 1, [], rfl⟩

/-- `"Hi!"`, in two chunks. -/
theorem echo_iff_hi :
    Echoes 0 (connWith [[72], [105, 33]]) [[72], [105, 33]].flatten ↔
      [[72], [105, 33]].flatten.length ≤ 8 :=
  echo_iff (receives_connWith (by decide)) (by decide)

/-- `"Good day!"` has nine bytes. -/
theorem echo_overlaps :
    Receives 0 (connWith [[71, 111, 111, 100, 32, 100, 97, 121, 33]])
        [[71, 111, 111, 100, 32, 100, 97, 121, 33]] ∧
      ¬ Echoes 0 (connWith [[71, 111, 111, 100, 32, 100, 97, 121, 33]])
        [71, 111, 111, 100, 32, 100, 97, 121, 33] := by
  have hreceives : Receives 0 (connWith [[71, 111, 111, 100, 32, 100, 97, 121, 33]])
      [[71, 111, 111, 100, 32, 100, 97, 121, 33]] := receives_connWith (by decide)
  refine ⟨hreceives, ?_⟩
  rintro ⟨fuel, c', hrun, -⟩
  rw [hreceives.overlaps (by decide) fuel] at hrun
  cases hrun

end LearnSpace.TcpServer
