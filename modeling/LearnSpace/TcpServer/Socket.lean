import LearnSpace.ByteArrays.Memcpy
import LearnSpace.Keel.Fuel

/-!
# The sockets of the TCP server

A `TcpSocket` in front of the kernel: what its calls of `recv` and `send` are answered, and
which descriptors they and `close` were made on. The arrays live in a pool of variables of the
copy of `CMByteArray` in `TCPServer`; the copies of its insertions ask for what `memcpy` does.

`readAll` reads until a call of `recv` hands nothing over. It comes to its end whatever the
kernel hands over before, with the chunks in the array one behind the other
(`readAll_reads`).
-/

namespace LearnSpace.TcpServer

open Keel Keel.Fuel KvStore ByteArrays
open KvStore.Pool (Frame)

/-- The errno of a call that would have to wait. -/
def EWOULDBLOCK : Int := 11

/-- `_buffer` has as many bytes. -/
def bufferSize : Nat := 1024

/-- What a call of `recv` answers. -/
inductive RecvResult
  | data (bytes : List Byte)
  /-- 0: the peer has closed -/
  | closed
  /-- −1 -/
  | failed (errno : Int)
  deriving DecidableEq

/-- What a call of `send` answers. -/
inductive SendResult
  | sent (count : Nat)
  /-- −1 -/
  | failed (errno : Int)
  deriving DecidableEq

/-- `TcpVirtualSocket::Error`. -/
structure Error where
  code : Int
  errorStr : List Byte
  deriving DecidableEq

/-- The fields of a `TcpSocket` that its calls use. The top of `_error` is in front. -/
structure TcpSocket where
  fd : Int
  error : List Error
  isConnect : Bool
  buffer : List Byte
  deriving DecidableEq

/-- The answers of the calls to come, and the calls that were made. -/
structure Kernel where
  recvs : List RecvResult
  sends : List SendResult
  /-- the descriptors `recv` was called on -/
  received : List Int
  /-- the descriptors `send` was called on, and the bytes -/
  passed : List (Int × List Byte)
  /-- the descriptors `close` was called on -/
  closed : List Int
  deriving DecidableEq

/-- A call of `recv`. There is none when the answers are used up. -/
def Kernel.recv (k : Kernel) (fd : Int) : Option (RecvResult × Kernel) :=
  match k.recvs with
  | [] => none
  | result :: results => some (result, { k with recvs := results, received := k.received ++ [fd] })

/-- A call of `send`. -/
def Kernel.send (k : Kernel) (fd : Int) (bytes : List Byte) : Option (SendResult × Kernel) :=
  match k.sends with
  | [] => none
  | result :: results =>
    some (result, { k with sends := results, passed := k.passed ++ [(fd, bytes)] })

/-- A socket, the kernel and the arrays. -/
structure Conn (ι : Type) where
  socket : TcpSocket
  kernel : Kernel
  pool : Pool ι

namespace Conn

variable {ι : Type}

/-- `TcpVirtualSocket::close`. -/
def close (c : Conn ι) : Conn ι :=
  let socket := { c.socket with error := [] }
  if socket.fd ≠ -1 then
    { c with
      socket := { socket with fd := -1 }
      kernel := { c.kernel with closed := c.kernel.closed ++ [socket.fd] } }
  else { c with socket := socket }

/-- `_isConnect = false; close();` -/
def disconnect (c : Conn ι) : Conn ι := close { c with socket.isConnect := false }

/-- `"read error"`. -/
def readError : List Byte := [114, 101, 97, 100, 32, 101, 114, 114, 111, 114]

variable [Fintype ι] [DecidableEq ι]

/-- An iteration of the loop of `readAll`; `x` is the array `data`. -/
def readTurn (x : ι) (c : Conn ι) : Option (Conn ι ⊕ (Conn ι × Answer)) :=
  if ¬ c.socket.isConnect then some (.inr (c, .done))
  else do
    let zeroed := List.replicate bufferSize 0
    let (result, kernel) ← c.kernel.recv c.socket.fd
    match result with
    | .closed => some (.inl (disconnect { c with kernel := kernel, socket.buffer := zeroed }))
    | .failed errno =>
      if errno = EWOULDBLOCK then
        some (.inr ({ c with kernel := kernel, socket.buffer := zeroed }, .done))
      else
        some (.inl (disconnect
          { c with
            kernel := kernel
            socket.buffer := zeroed
            socket.error := ⟨errno, readError⟩ :: c.socket.error }))
    | .data bytes => do
      let buffer ← Buffer.blit zeroed 0 bytes
      let (pool, answer) ←
        Copy.tcpServer.insertElementApart c.pool x (c.pool.size x) (.bytes buffer) bytes.length
      let c := { c with kernel := kernel, socket.buffer := buffer, pool := pool }
      match answer with
      | .done => some (.inl c)
      -- an exception leaves the loop
      | answer => some (.inr (c, answer))

/-- `readAll`, which returns its array in `x`. -/
def readAll (fuel : Nat) (x : ι) (c : Conn ι) : Option (Conn ι × Answer) :=
  match Copy.tcpServer.constructCapacity c.pool x defInitCapacity with
  | some (pool, .done) => loop (readTurn x) fuel { c with pool := pool }
  -- the constructor is `noexcept`
  | _ => none

/-- `send`, with the `size_t` it answers. -/
def send (x : ι) (c : Conn ι) : Option (Conn ι × Nat) :=
  if ¬ c.socket.isConnect then some (c, 2 ^ 64 - 1)
  else do
    let bytes ← readAt c.pool.data.heap (c.pool.data.holder x) 0 (c.pool.size x)
    let (result, kernel) ← c.kernel.send c.socket.fd bytes
    let c := { c with kernel := kernel }
    match result with
    | .sent 0 => some (c.disconnect, 0)
    | .sent count => some (c, count)
    | .failed errno =>
      if errno = EWOULDBLOCK then some (c, 2 ^ 64 - 1) else some (c.disconnect, 2 ^ 64 - 1)

end Conn

/-! ## One answer -/

variable {ι : Type} [Fintype ι] [DecidableEq ι] {c₀ c c' : Conn ι} {x : ι}
  {bs bytes : List Byte} {last : RecvResult} {rest results : List RecvResult}
  {chunks : List (List Byte)}

/-- Below 2^52 bytes a capacity stays within 1.5 times what there is and one chunk, and the
doubles that it is computed in are exact. -/
def Modest (n capacity : Nat) : Prop := n < 2 ^ 52 → 2 * capacity ≤ 3 * (n + bufferSize) + 1

theorem Modest.grown {n capacity len : Nat} (h : Modest n capacity) (hlen : len ≤ bufferSize) :
    Modest (n + len) (KvStore.grown capacity n len) := by
  intro hsmall
  have hcapacity := h (by omega)
  have hchunk : bufferSize = 1024 := rfl
  rw [KvStore.grown]
  split
  · have hstep : 2 * stepCapacity (capacity + len) ≤ 3 * (capacity + len) + 1 :=
      Double.timesThreeHalves_le (by omega)
    omega
  · omega

/-- Since `c₀` the socket has read `msg` in `calls` calls of `recv`, and it is as open as it was
then. -/
structure Reading (x : ι) (c₀ : Conn ι) (calls : Nat) (msg : List Byte) (c : Conn ι) : Prop where
  connected : c.socket.isConnect = true
  fd : c.socket.fd = c₀.socket.fd
  closed : c.kernel.closed = c₀.kernel.closed
  received : c.kernel.received = c₀.kernel.received ++ List.replicate calls c₀.socket.fd
  holds : Holds c.pool x msg
  modest : Modest msg.length (c.pool.capacity x)

namespace Reading

variable {calls : Nat} {msg : List Byte}

omit [DecidableEq ι] in
/-- One more call of `recv`. -/
theorem received_succ (h : Reading x c₀ calls msg c) :
    c.kernel.received ++ [c.socket.fd] =
      c₀.kernel.received ++ List.replicate (calls + 1) c₀.socket.fd := by
  rw [h.received, h.fd, List.append_assoc, ← List.replicate_succ']

/-- A chunk, which `_buffer` has room for, is appended. -/
theorem data (h : Reading x c₀ calls msg c) (hrecvs : c.kernel.recvs = .data bytes :: rest)
    (hfits : bytes.length ≤ bufferSize) :
    ∃ c', c.readTurn x = some (.inl c') ∧ Reading x c₀ (calls + 1) (msg ++ bytes) c' ∧
      c'.kernel.recvs = rest ∧ c'.kernel.sends = c.kernel.sends ∧
      c'.kernel.passed = c.kernel.passed := by
  have hblit : Buffer.blit (List.replicate bufferSize 0) 0 bytes =
      some (bytes ++ (List.replicate bufferSize 0).drop bytes.length) := by
    rw [Buffer.blit_eq (by rw [List.length_replicate]; omega), List.take_zero, List.nil_append,
      Nat.zero_add]
  have hslice : Buffer.slice (bytes ++ (List.replicate bufferSize 0).drop bytes.length) 0
      bytes.length = some bytes := by
    rw [Buffer.slice_eq (by rw [List.length_append]; omega), List.drop_zero, List.take_left]
  obtain ⟨pool, happend, hholds, hcapacity, -⟩ := h.holds.append hslice
  refine ⟨{ c with
      kernel := { c.kernel with recvs := rest, received := c.kernel.received ++ [c.socket.fd] }
      socket.buffer := bytes ++ (List.replicate bufferSize 0).drop bytes.length
      pool := pool }, ?_,
    ⟨h.connected, h.fd, h.closed, h.received_succ, hholds, ?_⟩, rfl, rfl, rfl⟩
  · rw [Conn.readTurn, if_neg (by simp [h.connected])]
    simp only [Kernel.recv, hrecvs, Option.bind_eq_bind, Option.bind_some, hblit, happend]
  · rw [List.length_append, hcapacity]
    exact h.modest.grown hfits

/-- The chunks, one behind the other. -/
theorem goes (h : Reading x c₀ calls msg c)
    (hchunks : ∀ bytes ∈ chunks, bytes.length ≤ bufferSize)
    (hrecvs : c.kernel.recvs = chunks.map .data ++ results) :
    ∃ c', Goes (Conn.readTurn x) chunks.length c c' ∧
      Reading x c₀ (calls + chunks.length) (msg ++ chunks.flatten) c' ∧
      c'.kernel.recvs = results ∧ c'.kernel.sends = c.kernel.sends ∧
      c'.kernel.passed = c.kernel.passed := by
  induction chunks generalizing c calls msg with
  | nil =>
      rw [List.flatten_nil, List.append_nil]
      exact ⟨c, .refl c, h, hrecvs, rfl, rfl⟩
  | cons bytes chunks ih =>
      obtain ⟨c₁, hturn, h₁, hrecvs₁, hsends₁, hpassed₁⟩ :=
        h.data hrecvs (hchunks bytes List.mem_cons_self)
      obtain ⟨c', hgoes, h', hrecvs', hsends', hpassed'⟩ :=
        ih h₁ (fun b hb => hchunks b (List.mem_cons_of_mem _ hb)) hrecvs₁
      refine ⟨c', ?_, ?_, hrecvs', hsends'.trans hsends₁, hpassed'.trans hpassed₁⟩
      · rw [List.length_cons, Nat.add_comm]
        exact (Goes.next hturn).trans hgoes
      · rw [List.length_cons, Nat.add_comm chunks.length, ← Nat.add_assoc, List.flatten_cons,
          ← List.append_assoc]
        exact h'

end Reading

/-! ## The last answer -/

/-- The connection is as open as it was. -/
structure StillOpen (c₀ c : Conn ι) : Prop where
  connected : c.socket.isConnect = true
  fd : c.socket.fd = c₀.socket.fd
  closed : c.kernel.closed = c₀.kernel.closed

/-- The descriptor has been closed, once. -/
structure ClosedOnce (c₀ c : Conn ι) : Prop where
  connected : c.socket.isConnect = false
  fd : c.socket.fd = -1
  closed : c.kernel.closed = c₀.kernel.closed ++ [c₀.socket.fd]

/-- `readAll` is over, and has left the socket as it should. -/
structure ReadsAll (x : ι) (c₀ : Conn ι) (chunks : List (List Byte)) (last : RecvResult)
    (rest : List RecvResult) (c : Conn ι) : Prop where
  open_iff : StillOpen c₀ c ↔ last = .failed EWOULDBLOCK
  closed_iff : ClosedOnce c₀ c ↔ last ≠ .failed EWOULDBLOCK
  recvs : c.kernel.recvs = rest
  received : c.kernel.received =
    c₀.kernel.received ++ List.replicate (chunks.length + 1) c₀.socket.fd
  others : c.kernel.sends = c₀.kernel.sends ∧ c.kernel.passed = c₀.kernel.passed
  holds : Holds c.pool x chunks.flatten
  modest : Modest chunks.flatten.length (c.pool.capacity x)

omit [Fintype ι] [DecidableEq ι] in
/-- A socket is not both. -/
theorem iff_of_closed (h : ClosedOnce c₀ c) (hlast : last ≠ .failed EWOULDBLOCK) :
    (StillOpen c₀ c ↔ last = .failed EWOULDBLOCK) ∧
      (ClosedOnce c₀ c ↔ last ≠ .failed EWOULDBLOCK) := by
  refine ⟨⟨fun hopen => ?_, fun heq => absurd heq hlast⟩, fun _ => hlast, fun _ => h⟩
  have hconn := h.connected
  rw [hopen.connected] at hconn
  cases hconn

omit [Fintype ι] [DecidableEq ι] in
theorem iff_of_open (h : StillOpen c₀ c) (hlast : last = .failed EWOULDBLOCK) :
    (StillOpen c₀ c ↔ last = .failed EWOULDBLOCK) ∧
      (ClosedOnce c₀ c ↔ last ≠ .failed EWOULDBLOCK) := by
  refine ⟨⟨fun _ => hlast, fun _ => h⟩, fun hclosed => ?_, fun hne => absurd hlast hne⟩
  have hconn := hclosed.connected
  rw [h.connected] at hconn
  cases hconn

omit [Fintype ι] [DecidableEq ι] in
/-- `disconnect` closes a descriptor that is open. -/
theorem disconnect_closes (hfd : c.socket.fd = c₀.socket.fd) (hne : c₀.socket.fd ≠ -1)
    (hclosed : c.kernel.closed = c₀.kernel.closed) : ClosedOnce c₀ c.disconnect := by
  rw [Conn.disconnect, Conn.close, if_pos (by rw [hfd]; exact hne)]
  refine ⟨rfl, rfl, ?_⟩
  show c.kernel.closed ++ [c.socket.fd] = _
  rw [hclosed, hfd]

omit [Fintype ι] [DecidableEq ι] in
/-- Nothing else changes. -/
theorem disconnect_keeps (c : Conn ι) :
    c.disconnect.pool = c.pool ∧
      c.disconnect.kernel = { c.kernel with closed := c.disconnect.kernel.closed } := by
  rw [Conn.disconnect, Conn.close]
  dsimp only
  split <;> exact ⟨rfl, rfl⟩

/-- The kernel behind a call of `recv`. -/
def answered (c : Conn ι) (rest : List RecvResult) : Kernel :=
  { c.kernel with recvs := rest, received := c.kernel.received ++ [c.socket.fd] }

/-- With the last answer the loop is left, or the socket is disconnected. -/
theorem Reading.readTurn_last {calls : Nat} {msg : List Byte}
    (h : Reading x c₀ calls msg c) (hdata : ∀ bytes, last ≠ .data bytes)
    (hrecvs : c.kernel.recvs = last :: rest) :
    ∃ socket : TcpSocket, socket.fd = c.socket.fd ∧ socket.isConnect = true ∧
      if last = .failed EWOULDBLOCK then
        c.readTurn x = some (.inr ({ c with socket := socket, kernel := answered c rest }, .done))
      else
        c.readTurn x =
          some (.inl { c with socket := socket, kernel := answered c rest }.disconnect) := by
  have hconn : ¬ ¬ c.socket.isConnect = true := not_not_intro h.connected
  cases last with
  | data bytes => exact absurd rfl (hdata bytes)
  | closed =>
      refine ⟨{ c.socket with buffer := List.replicate bufferSize 0 }, rfl, h.connected, ?_⟩
      rw [if_neg (by simp), Conn.readTurn, if_neg hconn]
      simp only [Kernel.recv, hrecvs, Option.bind_eq_bind, Option.bind_some]
      rfl
  | failed errno =>
      by_cases hblock : errno = EWOULDBLOCK
      · refine ⟨{ c.socket with buffer := List.replicate bufferSize 0 }, rfl, h.connected, ?_⟩
        rw [if_pos (by rw [hblock]), Conn.readTurn, if_neg hconn]
        simp only [Kernel.recv, hrecvs, Option.bind_eq_bind, Option.bind_some, if_pos hblock]
        rfl
      · refine ⟨{ c.socket with
            buffer := List.replicate bufferSize 0
            error := ⟨errno, Conn.readError⟩ :: c.socket.error }, rfl, h.connected, ?_⟩
        rw [if_neg (by simpa using hblock), Conn.readTurn, if_neg hconn]
        simp only [Kernel.recv, hrecvs, Option.bind_eq_bind, Option.bind_some, if_neg hblock]
        rfl

/-- From the last answer on the loop takes two iterations at most. -/
theorem Reading.readsAll (h : Reading x c₀ chunks.length chunks.flatten c)
    (hfd : c₀.socket.fd ≠ -1) (hdata : ∀ bytes, last ≠ .data bytes)
    (hrecvs : c.kernel.recvs = last :: rest)
    (hothers : c.kernel.sends = c₀.kernel.sends ∧ c.kernel.passed = c₀.kernel.passed) :
    ∃ c', ReadsAll x c₀ chunks last rest c' ∧
      ∀ fuel, loop (Conn.readTurn x) (fuel + 2) c = some (c', .done) := by
  obtain ⟨socket, hsocket, hconn, hturn⟩ := h.readTurn_last hdata hrecvs
  split at hturn
  · rename_i hblock
    have hopen : StillOpen c₀ { c with socket := socket, kernel := answered c rest } :=
      ⟨hconn, hsocket.trans h.fd, h.closed⟩
    have hiff := iff_of_open hopen hblock
    exact ⟨_, ⟨hiff.1, hiff.2, rfl, h.received_succ, hothers, h.holds, h.modest⟩,
      fun fuel => loop_leave hturn (fuel + 1)⟩
  · rename_i hclose
    have honce : ClosedOnce c₀
        { c with socket := socket, kernel := answered c rest }.disconnect :=
      disconnect_closes (hsocket.trans h.fd) hfd h.closed
    have hiff := iff_of_closed honce hclose
    obtain ⟨hpool, hkernel⟩ :=
      disconnect_keeps { c with socket := socket, kernel := answered c rest }
    refine ⟨_, ⟨hiff.1, hiff.2, ?_, ?_, ?_, ?_, ?_⟩, fun fuel => ?_⟩
    · rw [hkernel]
      rfl
    · rw [hkernel]
      exact h.received_succ
    · rw [hkernel]
      exact hothers
    · rw [hpool]
      exact h.holds
    · rw [hpool]
      exact h.modest
    · rw [loop_next hturn]
      refine loop_leave ?_ fuel
      rw [Conn.readTurn, if_pos (by rw [honce.connected]; simp)]

/-- `readAll`, with fuel for one iteration more than there are answers. -/
theorem readAll_readsAll (hconn : c₀.socket.isConnect = true) (hfd : c₀.socket.fd ≠ -1)
    (hothers : OthersLive c₀.pool x) (hchunks : ∀ bytes ∈ chunks, bytes.length ≤ bufferSize)
    (hdata : ∀ bytes, last ≠ .data bytes)
    (hrecvs : c₀.kernel.recvs = chunks.map .data ++ last :: rest) :
    ∃ c, ReadsAll x c₀ chunks last rest c ∧
      ∀ fuel, c₀.readAll (chunks.length + (fuel + 2)) x = some (c, .done) := by
  have hpos : 0 < defInitCapacity := by decide
  obtain ⟨pool, hconstruct, hholds, hcapacity, -⟩ :=
    constructCapacity_holds .tcpServer hpos hothers
  have hstart : Reading x c₀ 0 [] { c₀ with pool := pool } := by
    refine ⟨hconn, rfl, rfl, (List.append_nil _).symm, hholds, fun _ => ?_⟩
    show 2 * pool.capacity x ≤ _
    rw [hcapacity]
    decide
  obtain ⟨c₁, hgoes, hreading, hrecvs₁, hsends, hpassed⟩ := hstart.goes hchunks hrecvs
  rw [Nat.zero_add, List.nil_append] at hreading
  obtain ⟨c, hreads, hloop⟩ := hreading.readsAll hfd hdata hrecvs₁ ⟨hsends, hpassed⟩
  refine ⟨c, hreads, fun fuel => ?_⟩
  rw [Conn.readAll, hconstruct]
  exact (hgoes (fuel + 2)).trans (hloop fuel)

/-- **Reading all there is.** For every connected socket and all answers of `recv` up to the
first that is not a chunk, `readAll` makes one call for each, and ends with the chunks in its
array one behind the other. The socket is as open as before exactly if the last answer was
`EWOULDBLOCK`; with any other its descriptor has been closed once. Below 2^52 bytes no capacity
on the way reaches 2^53. -/
theorem readAll_reads (hconn : c₀.socket.isConnect = true) (hfd : c₀.socket.fd ≠ -1)
    (hothers : OthersLive c₀.pool x)
    (hchunks : ∀ bytes ∈ chunks, 0 < bytes.length ∧ bytes.length ≤ bufferSize)
    (hdata : ∀ bytes, last ≠ .data bytes)
    (hrecvs : c₀.kernel.recvs = chunks.map .data ++ last :: rest) :
    ∃ c, (∀ fuel, chunks.length + 1 < fuel → c₀.readAll fuel x = some (c, .done)) ∧
      c.pool.content x = chunks.flatten ∧ c.kernel.recvs = rest ∧
      c.kernel.received =
        c₀.kernel.received ++ List.replicate (chunks.length + 1) c₀.socket.fd ∧
      (StillOpen c₀ c ↔ last = .failed EWOULDBLOCK) ∧
      (ClosedOnce c₀ c ↔ last ≠ .failed EWOULDBLOCK) ∧
      (chunks.flatten.length < 2 ^ 52 → c.pool.capacity x < 2 ^ 53) := by
  obtain ⟨c, hreads, hread⟩ :=
    readAll_readsAll hconn hfd hothers (fun b hb => (hchunks b hb).2) hdata hrecvs
  refine ⟨c, fun fuel hfuel => ?_, hreads.holds.content, hreads.recvs, hreads.received,
    hreads.open_iff, hreads.closed_iff, fun hsmall => ?_⟩
  · obtain ⟨more, rfl⟩ := Nat.exists_eq_add_of_lt hfuel
    have heq : chunks.length + 1 + more + 1 = chunks.length + (more + 2) := by omega
    rw [heq]
    exact hread more
  · have hmodest := hreads.modest hsmall
    have hchunk : bufferSize = 1024 := rfl
    omega

/-- Two chunks, and the end of the stream. -/
def connHi : Conn (Fin 1) where
  socket := ⟨7, [], true, []⟩
  kernel := ⟨[.data [72], .data [105, 33], .closed, .data [9]], [], [], [], []⟩
  pool := .empty

theorem readAll_reads_hi :
    ∃ c, (∀ fuel, 3 < fuel → connHi.readAll fuel 0 = some (c, .done)) ∧
      c.pool.content 0 = [72, 105, 33] ∧ c.kernel.recvs = [.data [9]] ∧
      c.kernel.received = [7, 7, 7] ∧
      (StillOpen connHi c ↔ RecvResult.closed = .failed EWOULDBLOCK) ∧
      (ClosedOnce connHi c ↔ RecvResult.closed ≠ .failed EWOULDBLOCK) ∧
      ([[72], [105, 33]].flatten.length < 2 ^ 52 → c.pool.capacity 0 < 2 ^ 53) := by
  have hrecvs : connHi.kernel.recvs =
      [[72], [105, 33]].map .data ++ .closed :: [.data [9]] := rfl
  exact readAll_reads rfl (by decide) (fun _ _ => .inl rfl) (by decide) (by simp) hrecvs

end LearnSpace.TcpServer
