import LearnSpace.Keel.Buffer
import LearnSpace.Keel.Heap
import LearnSpace.KvStore.ByteArray

/-!
# The echo server on io_uring

`main` of `ioURingServer` and the three functions that prepare an operation. The server asks
for operations by entries in the submission queue, and gets a completion for each. What the
kernel does is in the labels: which operation under way completes next, with what result,
and with which bytes if it is a `recv`. An operation completes once, and preparing an entry
leaves its `user_data` alone.

A turn of the loop is a batch of completions. `io_uring_for_each_cqe` looks at the end of
the queue anew each time round, so that a completion can arrive while the ones before it are
being handled. `none` is an access to a context that is not live, a copy out of bounds, or
`printf` of a buffer without a zero.
-/

namespace LearnSpace.IoURingServer

open Keel Function
open KvStore (Byte)

/-- `EventType`. -/
inductive EventType
  | UNDEF
  | ACCEPT
  | RECV
  | SEND
  deriving DecidableEq, Repr

/-- The length of `EventContext::buffer`. -/
def bufferLen : Nat := 2048

/-- `EventContext`, with its defaults. -/
structure EventContext where
  type : EventType := .UNDEF
  fd : Int := 0
  buffer : List Byte := List.replicate bufferLen 0

/-- What `io_uring_prep_accept`, `io_uring_prep_recv` and `io_uring_prep_send` put into an
entry. A buffer is named by the context it is in. -/
inductive Op
  | accept (fd : Int)
  | recv (fd : Int) (buffer : Ptr) (len : Nat)
  | send (fd : Int) (buffer : Ptr) (len : Nat)
  deriving DecidableEq, Repr

/-- An `io_uring_sqe`. -/
structure Sqe where
  op : Op
  userData : Ptr
  deriving DecidableEq, Repr

/-- The entries `io_uring_queue_init` is asked for. -/
def sqEntries : Nat := 128

/-- The contexts, the entries that are not submitted, the operations that the kernel is at,
the connections that are open, and the local variable `needSubmit`. -/
structure Server where
  contexts : Heap EventContext
  sq : List Sqe
  inflight : List Sqe
  isOpen : Int → Bool
  needSubmit : Bool

/-- A completion: the operation, the result `res`, and what a `recv` has received. -/
structure Completion where
  sqe : Sqe
  res : Int
  data : List Byte := []

namespace Server

/-- The ring is initialized. -/
def new : Server where
  contexts := .empty
  sq := []
  inflight := []
  isOpen _ := false
  needSubmit := false

variable (σ : Server)

/-- `close(fd)`. -/
def close (fd : Int) : Server := { σ with isOpen := update σ.isOpen fd false }

/-- `io_uring_submit`. -/
def submit : Server := { σ with sq := [], inflight := σ.inflight ++ σ.sq }

/-! ## Preparing operations -/

/-- An entry is taken from the queue, and goes with a new context. If the queue is full,
`io_uring_get_sqe` answers null and nothing is done. -/
def setEvent (context : EventContext) (prep : Ptr → Op) : Server :=
  if σ.sq.length < sqEntries then
    let new := σ.contexts.alloc context
    { σ with contexts := new.2, sq := σ.sq ++ [⟨prep new.1, new.1⟩] }
  else σ

/-- `setAcceptEvent`. -/
def setAcceptEvent (fd : Int) : Server :=
  σ.setEvent { type := .ACCEPT, fd := -1 } fun _ => .accept fd

/-- `setReadEvent`. -/
def setReadEvent (fd : Int) : Server :=
  σ.setEvent { type := .RECV, fd := fd } fun context => .recv fd context bufferLen

/-- `setSendEvent`. Only a context that is made is copied into. -/
def setSendEvent (fd : Int) (msg : List Byte) (msgLen : Nat) : Option Server :=
  if σ.sq.length < sqEntries then do
    let bytes ← Buffer.slice msg 0 msgLen
    let buffer ← Buffer.blit (List.replicate bufferLen 0) 0 bytes
    return σ.setEvent { type := .SEND, fd := fd, buffer := buffer } fun context =>
      .send fd context msgLen
  else some σ

/-! ## Completions -/

/-- The branches of `switch (context->type)`. -/
def dispatch (listenFd : Int) (context : EventContext) (cqeRes : Int) : Option Server :=
  match context.type with
  | .ACCEPT =>
      some { (σ.setAcceptEvent listenFd).setReadEvent cqeRes with needSubmit := true }
  | .RECV =>
      if cqeRes = 0 then some (σ.close context.fd)
      else if 0 ∈ context.buffer then do
        let σ ← σ.setSendEvent context.fd context.buffer cqeRes.toNat
        return { σ with needSubmit := true }
      else none
  | .SEND =>
      if cqeRes = 0 then some (σ.close context.fd)
      else some { σ.setReadEvent context.fd with needSubmit := true }
  | .UNDEF => some σ

/-- `delete context`. -/
def deleteContext (p : Ptr) : Option Server := do
  let contexts ← σ.contexts.free p
  return { σ with contexts := contexts }

/-- The body of `io_uring_for_each_cqe`. -/
def handle (listenFd : Int) (userData : Ptr) (cqeRes : Int) : Option Server := do
  let context ← σ.contexts.load userData
  if cqeRes < 0 then
    (if context.fd > 0 then σ.close context.fd else σ).deleteContext userData
  else
    let σ ← σ.dispatch listenFd context cqeRes
    σ.deleteContext userData

/-- The kernel completes an operation: `accept` opens a connection, `recv` fills the
buffer. -/
def complete (c : Completion) : Option Server :=
  let σ := { σ with inflight := σ.inflight.erase c.sqe }
  match c.sqe.op with
  | .accept _ =>
      some (if 0 ≤ c.res then { σ with isOpen := update σ.isOpen c.res true } else σ)
  | .recv _ buffer _ => do
      let contexts ← σ.contexts.modify buffer fun context =>
        { context with buffer := c.data ++ context.buffer.drop c.data.length }
      return { σ with contexts := contexts }
  | .send .. => some σ

/-- An operation completes and is handled. -/
def completed (listenFd : Int) (c : Completion) : Option Server := do
  let σ ← σ.complete c
  σ.handle listenFd c.sqe.userData c.res

end Server

/-- `io_uring_for_each_cqe`. -/
def forEachCqe (listenFd : Int) : Server → List Completion → Option Server
  | σ, [] => some σ
  | σ, c :: cs => do
      let σ ← σ.completed listenFd c
      forEachCqe listenFd σ cs

/-- A turn of the loop begins. -/
def Server.beginTurn (σ : Server) : Server := { σ with needSubmit := false }

/-- A turn of the loop. -/
def Server.turn (listenFd : Int) (σ : Server) (batch : List Completion) : Option Server := do
  let σ ← forEachCqe listenFd σ.beginTurn batch
  return if σ.needSubmit then σ.submit else σ

/-- What comes before the loop. -/
def Server.start (listenFd : Int) : Server := (Server.new.setAcceptEvent listenFd).submit

/-! ## What the kernel can answer -/

/-- An operation that is under way completes. The descriptor that `accept` answers is not
open yet, and no more bytes are received or sent than were asked for. -/
def Completion.Legal (σ : Server) (c : Completion) : Prop :=
  c.sqe ∈ σ.inflight ∧
    match c.sqe.op with
    | .accept _ => 0 ≤ c.res → σ.isOpen c.res = false
    | .recv _ _ len => c.res ≤ len ∧ c.data.length = c.res.toNat
    | .send _ _ len => c.res ≤ len

/-- Each completion of a batch is legal when its turn comes. -/
def LegalBatch (listenFd : Int) : Server → List Completion → Prop
  | _, [] => True
  | σ, c :: cs =>
      c.Legal σ ∧ ∀ τ, σ.completed listenFd c = some τ → LegalBatch listenFd τ cs

end LearnSpace.IoURingServer
