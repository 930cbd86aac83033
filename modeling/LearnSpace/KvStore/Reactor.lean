import LearnSpace.Keel.Heap
import LearnSpace.Keel.TSys
import LearnSpace.KvStore.Protocol

/-!
# The reactor of the key-value store

`ReactorServer::doRun`, the handlers of `ReactorEventObj` and the methods of
`KVTcpServer` and `KVTcpClient` they call. The objects live in a heap, so that
an entry of `_eventMap` can be null or point to an object of another
descriptor. What the kernel answers is in the labels of the steps: the reports
of `epoll_wait`, the descriptor of `accept`, and what each `recv` and `send` of
a handler returns. System calls that hand nothing back are taken to succeed.

A handler can end in an exception, which leaves `doRun`, or in something that
has no defined behaviour. The state it has reached by then is kept, and the
server makes no further step.
-/

namespace LearnSpace.KvStore

open Keel Function

/-- `ReactorEventObj::EventType`. -/
inductive EventType
  | None
  | Accept
  | Read
  | Write
  | ReadAndWrite
  deriving DecidableEq, Repr

/-- `ReactorEventObj::TriggerMode`. -/
inductive TriggerMode
  | LT
  | ET
  deriving DecidableEq, Repr

/-- A `KVTcpClient`. Its `_dataBuffer` only carries the bytes of one `recv`. -/
structure KVTcpClient where
  fd : Int
  type : EventType
  mode : TriggerMode
  recvBuffer : Bytes
  sendBuffer : Bytes
  deriving DecidableEq

/-- The constructor, with its default for the trigger mode. -/
def KVTcpClient.new (fd : Int) (type : EventType) : KVTcpClient :=
  ⟨fd, type, .ET, .new, .new⟩

/-- The events a descriptor is registered for. -/
structure Interest where
  epollin : Bool
  epollout : Bool
  epollet : Bool
  deriving DecidableEq, Repr

/-- The flags `updateEventObj` passes to `epoll_ctl`. -/
def KVTcpClient.events (c : KVTcpClient) : Interest where
  epollin := c.type = .ReadAndWrite ∨ c.type = .Accept ∨ c.type = .Read
  epollout := c.type = .ReadAndWrite ∨ c.type = .Write
  epollet := c.mode = .ET

/-- An `epoll_event` that `epoll_wait` fills in. Errors and hang-ups are
reported too, and `doRun` looks at neither flag. -/
structure EpollEvent where
  fd : Int
  epollin : Bool
  epollout : Bool
  deriving DecidableEq, Repr

/-- What `recv` answers to the calls of one `onRecv`, in order. -/
inductive Received
  | data (bytes : List Byte) (more : Received)
  /-- −1 with `EWOULDBLOCK` -/
  | wouldBlock
  /-- 0: the peer has closed -/
  | closed
  /-- −1 with any other `errno` -/
  | failed
  deriving DecidableEq

/-- What `send` answers to the calls of one `onSend`. -/
inductive Sent
  | sent (count : Nat) (more : Sent)
  | wouldBlock
  | closed
  | failed
  deriving DecidableEq

/-- `_bufferSize`. -/
def bufferSize : Nat := 1024 * 10

/-- `_eventCount`. -/
def eventCount : Nat := 1024 * 100

/-- Every answer of `recv` that carries bytes carries some, and no more than
`_dataBuffer` has room for. -/
def Received.Fits : Received → Prop
  | .data bytes more => 0 < bytes.length ∧ bytes.length ≤ bufferSize ∧ more.Fits
  | _ => True

instance Received.decidableFits : (answer : Received) → Decidable answer.Fits
  | .data bytes more =>
    have := decidableFits more
    inferInstanceAs (Decidable (0 < bytes.length ∧ bytes.length ≤ bufferSize ∧ more.Fits))
  | .wouldBlock => isTrue trivial
  | .closed => isTrue trivial
  | .failed => isTrue trivial

/-- How the handling of an event ends. -/
inductive Ending
  | handled
  | threw
  | undefined
  deriving DecidableEq, Repr

/-- `analysis` can let `std::out_of_range` through; its other faults have no
defined behaviour. -/
def ParseFault.ending : ParseFault Fault → Ending
  | .command .outOfRange => .threw
  | _ => .undefined

/-- `ReactorServer`, the clients it owns and the descriptors of accepted
connections as the kernel has them. -/
structure ReactorServer where
  objects : Heap KVTcpClient
  eventMap : Int → Option Ptr
  isOpen : Int → Bool
  interest : Int → Option Interest

namespace ReactorServer

/-- No client. -/
def new : ReactorServer := ⟨.empty, fun _ => none, fun _ => false, fun _ => none⟩

/-- Go on with `f` unless the handling has ended. -/
def andThen (r : ReactorServer × Ending) (f : ReactorServer → ReactorServer × Ending) :
    ReactorServer × Ending :=
  match r.2 with
  | .handled => f r.1
  | _ => r

variable (s : ReactorServer)

/-- A use of the object behind `p`. -/
def deref (p : Ptr) (f : KVTcpClient → ReactorServer × Ending) : ReactorServer × Ending :=
  match s.objects.load p with
  | none => (s, .undefined)
  | some c => f c

/-- Write the object behind `p`. -/
def store (p : Ptr) (c : KVTcpClient) : ReactorServer × Ending :=
  match s.objects.store p c with
  | none => (s, .undefined)
  | some objects => ({ s with objects := objects }, .handled)

/-- `accept` has handed out `fd`. -/
def opened (fd : Int) : ReactorServer := { s with isOpen := update s.isOpen fd true }

/-- `close(fd)`. The kernel drops a closed descriptor from the epoll set. -/
def close (fd : Int) : ReactorServer :=
  { s with isOpen := update s.isOpen fd false, interest := update s.interest fd none }

/-- `updateEventObj`: add the descriptor to the epoll set or change its flags.
Neither works on a descriptor that is not open. -/
def updateEventObj (fd : Int) : ReactorServer × Ending :=
  match s.eventMap fd with
  | none => (s, .handled)
  | some objPtr =>
    s.deref objPtr fun c =>
      if s.isOpen c.fd then
        ({ s with interest := update s.interest c.fd (some c.events) }, .handled)
      else (s, .handled)

/-- `addEventObj`. -/
def addEventObj (objPtr : Ptr) : ReactorServer × Ending :=
  s.deref objPtr fun c =>
    if (s.eventMap c.fd).isSome then (s, .handled)
    else
      let s := { s with eventMap := update s.eventMap c.fd (some objPtr) }
      s.updateEventObj c.fd

/-- `removeEventObj`. -/
def removeEventObj (fd : Int) : ReactorServer :=
  { s with eventMap := update s.eventMap fd none, interest := update s.interest fd none }

/-- `~KVTcpClient`, and the release of the memory. -/
def destroy (p : Ptr) : ReactorServer × Ending :=
  s.deref p fun c =>
    let s := if c.fd ≠ -1 then s.close c.fd else s
    match s.objects.free p with
    | none => (s, .undefined)
    | some objects => ({ s with objects := objects }, .handled)

/-- A local `shared_ptr` to `p` goes out of scope. The map holds an object
under no key but `fd`. -/
def release (fd : Int) (p : Ptr) : ReactorServer × Ending :=
  if p = null ∨ s.eventMap fd = some p then (s, .handled) else s.destroy p

/-- `KVTcpServer::acceptImp`. -/
def acceptImp (fd : Int) : ReactorServer × Ending :=
  let (clPtr, objects) := s.objects.alloc (.new fd .Read)
  andThen ({ s with objects := objects }.addEventObj clPtr) fun s => s.release fd clPtr

/-- `onAccept`. -/
def onAccept (fd : Int) : ReactorServer × Ending := s.acceptImp fd

/-- `KVTcpClient::happenError`. -/
def happenError (p : Ptr) : ReactorServer × Ending :=
  s.deref p fun c =>
    if c.fd ≠ -1 then (s.close c.fd).store p { c with fd := -1 } else (s, .handled)

/-- `KVTcpClient::closeImp`. -/
def closeImp (p : Ptr) : ReactorServer × Ending :=
  s.deref p fun c => ((s.removeEventObj c.fd).close c.fd).store p { c with fd := -1 }

/-- `onClose`. -/
def onClose (p : Ptr) : ReactorServer × Ending := s.closeImp p

/-- `KVTcpClient::recvImp` on the buffer of the object. -/
def recvImp (p : Ptr) : ReactorServer × Ending :=
  s.deref p fun c =>
    match KvStore.recvImp getCommand c.recvBuffer with
    | .error fault => (s, fault.ending)
    | .ok (recvBuffer, _) => s.store p { c with recvBuffer := recvBuffer }

/-- `KVTcpClient::sendImp`. -/
def sendImp (p : Ptr) : ReactorServer × Ending :=
  s.deref p fun c =>
    if c.sendBuffer.size = 0 then
      andThen (s.store p { c with type := .Read }) fun s => s.updateEventObj c.fd
    else (s, .handled)

/-- `_recvBuffer.append(_dataBuffer, size)`. -/
def appendReceived (p : Ptr) (bytes : List Byte) : ReactorServer × Ending :=
  s.deref p fun c => s.store p { c with recvBuffer := c.recvBuffer.append bytes }

/-- `onRecv`. Behind `happenError` the loop goes on and appends `size` bytes,
which is −1 converted to `size_t`. -/
def onRecv (s : ReactorServer) (p : Ptr) : Received → ReactorServer × Ending
  | .data bytes more => andThen (s.appendReceived p bytes) fun s => s.onRecv p more
  | .wouldBlock => s.recvImp p
  | .closed => andThen (s.recvImp p) fun s => s.onClose p
  | .failed => andThen (s.happenError p) fun s => (s, .undefined)

/-- `_sendBuffer.remove(0, len)`. -/
def removeSent (p : Ptr) (len : Nat) : ReactorServer × Ending :=
  s.deref p fun c =>
    s.store p { c with sendBuffer := c.sendBuffer.remove 0 len (Nat.zero_le _) }

/-- The end of `onSend` behind its loop. -/
def sendDone (p : Ptr) (offset : Nat) : ReactorServer × Ending :=
  andThen (s.removeSent p offset) fun s => s.sendImp p

/-- The test of the loop of `onSend`: with all sent leave it, else go on. -/
def sendLoop (p : Ptr) (offset : Nat) (body : ReactorServer × Ending) :
    ReactorServer × Ending :=
  s.deref p fun c => if c.sendBuffer.size = offset then s.sendDone p offset else body

/-- `onSend`, from the loop variable `offset` on. Behind `happenError` every
`send` fails, and `offset` is counted down past the start of the buffer. -/
def onSendFrom (s : ReactorServer) (p : Ptr) (offset : Nat) : Sent → ReactorServer × Ending
  | .sent count more => s.sendLoop p offset (s.onSendFrom p (offset + count) more)
  | .wouldBlock => s.sendLoop p offset (s.sendDone p offset)
  | .closed => s.sendLoop p offset (andThen (s.sendDone p offset) fun s => s.onClose p)
  | .failed =>
    s.sendLoop p offset (andThen (s.happenError p) fun s => (s, .undefined))

/-- `onSend`. -/
def onSend (p : Ptr) (answer : Sent) : ReactorServer × Ending := s.onSendFrom p 0 answer

/-- `_eventMap[fd]`, which files a null pointer under a key that is missing. -/
def lookup (fd : Int) : Ptr × ReactorServer :=
  match s.eventMap fd with
  | some p => (p, s)
  | none => (null, { s with eventMap := update s.eventMap fd (some null) })

/-- The body of the loop over `events` for a client. -/
def dispatch (event : EpollEvent) (recv : Received) (send : Sent) : ReactorServer × Ending :=
  let (eventPtr, s) := s.lookup event.fd
  andThen (if event.epollin then s.onRecv eventPtr recv else (s, .handled)) fun s =>
    andThen (if event.epollout then s.onSend eventPtr send else (s, .handled)) fun s =>
      s.release event.fd eventPtr

end ReactorServer

/-! ## The server and the kernel -/

/-- The server between two reports. The connections of the listening socket
are numbered as they arrive. -/
structure Reactor where
  server : ReactorServer
  /-- the reports of the last `epoll_wait` that `doRun` has not come to -/
  ready : List EpollEvent
  ending : Ending
  /-- arrived and not accepted, oldest first -/
  backlog : List Nat
  arrived : Nat
  /-- a connection has arrived since the last report of the listening socket -/
  edge : Bool
  /-- how many had arrived at that report -/
  reported : Nat

/-- What the kernel answers to the calls made for one report. -/
structure Answers where
  /-- `none` is −1 -/
  accept : Option Int
  recv : Received
  send : Sent
  deriving DecidableEq

/-- A connection arrives, `epoll_wait` returns, or the loop body is run for the
next report. -/
inductive ReactorEvent
  | arrive
  | epollWait (events : List EpollEvent)
  | handle (answers : Answers)
  deriving DecidableEq

namespace Reactor

/-- Before the first `epoll_wait`. -/
def new : Reactor := ⟨.new, [], .handled, [], 0, false, 0⟩

/-- The body of the loop over `events` for the next report. -/
def handle (listenFD : Int) (r : Reactor) (answers : Answers) : Reactor :=
  match r.ready with
  | [] => r
  | event :: rest =>
    if event.fd = listenFD then
      match answers.accept with
      | none => { r with ready := rest }
      | some clFd =>
        let (server, ending) := (r.server.opened clFd).onAccept clFd
        { r with
          server := server
          ready := rest
          ending := ending
          backlog := r.backlog.tail }
    else
      let (server, ending) := r.server.dispatch event answers.recv answers.send
      { r with server := server, ready := rest, ending := ending }

theorem handle_listen {listenFD : Int} {r : Reactor} {event : EpollEvent}
    {rest : List EpollEvent} (hready : r.ready = event :: rest) (hfd : event.fd = listenFD)
    (answers : Answers) :
    r.handle listenFD answers = match answers.accept with
      | none => { r with ready := rest }
      | some clFd => { r with
          server := ((r.server.opened clFd).onAccept clFd).1
          ready := rest
          ending := ((r.server.opened clFd).onAccept clFd).2
          backlog := r.backlog.tail } := by
  rw [handle, hready]
  simp only [hfd, if_true]

theorem handle_client {listenFD : Int} {r : Reactor} {event : EpollEvent}
    {rest : List EpollEvent} (hready : r.ready = event :: rest) (hfd : event.fd ≠ listenFD)
    (answers : Answers) :
    r.handle listenFD answers = { r with
      server := (r.server.dispatch event answers.recv answers.send).1
      ready := rest
      ending := (r.server.dispatch event answers.recv answers.send).2 } := by
  rw [handle, hready]
  simp only [hfd, if_false]

/-- The state after an event. -/
def next (listenFD : Int) (r : Reactor) : ReactorEvent → Reactor
  | .arrive =>
    { r with backlog := r.backlog ++ [r.arrived], arrived := r.arrived + 1, edge := true }
  | .epollWait events =>
    if listenFD ∈ events.map (·.fd) then
      { r with ready := events, edge := false, reported := r.arrived }
    else { r with ready := events }
  | .handle answers => r.handle listenFD answers

/-- When `epoll_wait` may report `event`: the listening socket when a connection
has arrived since its last report, a client when it is in the epoll set. -/
def Reportable (listenFD : Int) (r : Reactor) (event : EpollEvent) : Prop :=
  if event.fd = listenFD then r.edge else (r.server.interest event.fd).isSome

/-- When `accept` may hand out `clFd`. The number can be one that was in use
before. -/
def Acceptable (listenFD : Int) (r : Reactor) (clFd : Int) : Prop :=
  0 ≤ clFd ∧ clFd ≠ listenFD ∧ r.server.isOpen clFd = false ∧ r.backlog ≠ []

/-- What the kernel and the loop of `doRun` may do. `epoll_wait` comes behind
the last report, and names no descriptor twice. -/
def Allowed (listenFD : Int) (r : Reactor) : ReactorEvent → Prop
  | .arrive => True
  | .epollWait events =>
    r.ending = .handled ∧ r.ready = [] ∧ events.length ≤ eventCount ∧
      (events.map (·.fd)).Nodup ∧ ∀ event ∈ events, r.Reportable listenFD event
  | .handle answers =>
    r.ending = .handled ∧ r.ready ≠ [] ∧ answers.recv.Fits ∧
      ∀ clFd ∈ answers.accept, r.Acceptable listenFD clFd

instance (listenFD : Int) (r : Reactor) (event : EpollEvent) :
    Decidable (r.Reportable listenFD event) := by
  unfold Reportable
  infer_instance

instance (listenFD : Int) (r : Reactor) (clFd : Int) :
    Decidable (r.Acceptable listenFD clFd) := by
  unfold Acceptable
  infer_instance

instance (listenFD : Int) (r : Reactor) : (e : ReactorEvent) → Decidable (r.Allowed listenFD e)
  | .arrive => isTrue trivial
  | .epollWait _ => by unfold Allowed; infer_instance
  | .handle _ => by unfold Allowed; infer_instance

/-- The state after a list of events. -/
def run (listenFD : Int) (r : Reactor) (es : List ReactorEvent) : Reactor :=
  es.foldl (next listenFD) r

/-- Each event of the list is allowed, and respects `ok`, where it happens. -/
def Legal (listenFD : Int) (ok : Reactor → ReactorEvent → Prop) :
    Reactor → List ReactorEvent → Prop
  | _, [] => True
  | r, e :: es => ok r e ∧ r.Allowed listenFD e ∧ Legal listenFD ok (r.next listenFD e) es

end Reactor

/-- The server under every order of arrivals, reports and answers that respects
the discipline `ok`. -/
def reactor (listenFD : Int) (ok : Reactor → ReactorEvent → Prop) :
    TSys Reactor ReactorEvent where
  init r := r = .new
  step r e r' := ok r e ∧ r.Allowed listenFD e ∧ r' = r.next listenFD e

theorem Reactor.reachable_run {listenFD : Int} {ok : Reactor → ReactorEvent → Prop}
    {r : Reactor} {es : List ReactorEvent} (hr : (reactor listenFD ok).Reachable r)
    (hes : r.Legal listenFD ok es) : (reactor listenFD ok).Reachable (r.run listenFD es) := by
  induction es generalizing r with
  | nil => exact hr
  | cons e es ih =>
      obtain ⟨hok, hallowed, hrest⟩ := hes
      exact ih (.step hr ⟨hok, hallowed, rfl⟩) hrest

end LearnSpace.KvStore
