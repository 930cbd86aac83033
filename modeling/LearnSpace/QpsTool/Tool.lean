import Mathlib.Algebra.Group.Int.Defs
import LearnSpace.Keel.Slots
import LearnSpace.Keel.TSys
import LearnSpace.KvStore.ByteArray

/-!
# The QPS tool

`startTest` of `qpsTool`. The tool connects `clSize` sockets and sends the same message on each of
them over and over, waiting for bytes in between. Every operation has a context of the pool, which
is named by its key; a context is never deleted. The kernel is in the labels: which operations
have completed when the loop looks for completions, with what results, how many seconds have
passed, and what `socket` answers. `room n` says whether `io_uring_get_sqe` has an entry when `n`
are not submitted yet. Received bytes are never looked at, and are left out, and so is `close`:
no descriptor is made behind the loop over the clients.

A state is also where the program stands, since the claims are about every moment of a batch.
`none` is a use of the null pointer, an index outside of `poolElState`, or an overflow of the `int`
`finishedCount`. `clSize + 10` is below 2^31, so the other counters do not overflow.
-/

namespace LearnSpace.QpsTool

open Keel Function
open KvStore (Byte)

/-! ## Data -/

/-- `Config::Mode`. -/
inductive Mode
  | Amount
  | Time
  deriving DecidableEq, Repr

/-- `Config`, what `startTest` reads of it. -/
structure Config where
  clSize : Nat := 0
  requestSize : Int := -1
  durationTime : Int := -1
  mode : Mode
  msg : List Byte :=
    [97, 98, 99, 100, 101, 102, 103, 104, 105, 103, 107, 108, 109, 110, 111, 112, 113, 114, 115,
      116, 117, 118, 119, 120, 121, 122, 49, 50, 51, 52, 53, 54, 55, 56, 57, 48, 97, 98, 99, 100,
      101, 102, 103, 104, 105, 103, 107, 108, 109, 110, 111, 112, 113, 114, 115, 116, 117, 118,
      119, 120, 121, 122, 9, 0]

/-- `EventType`. -/
inductive EventType
  | UNDEF
  | ACCEPT
  | CONNECT
  | RECV
  | SEND
  deriving DecidableEq, Repr

/-- The length of `EventContext::buffer`. -/
def bufferLen : Nat := 2048

/-- `EventContext`, with its defaults. -/
structure EventContext where
  key : Int := -1
  type : EventType := .UNDEF
  fd : Int := 0
  buffer : List Byte := List.replicate bufferLen 0

/-- What `io_uring_prep_connect`, `io_uring_prep_recv` and `io_uring_prep_send` put into an entry.
A buffer is named by the context it is in. -/
inductive Op
  | connect (fd : Int)
  | recv (fd : Int) (buffer : Nat) (len : Nat)
  | send (fd : Int) (buffer : Nat) (len : Nat)
  deriving DecidableEq, Repr

/-- The descriptor of an operation. -/
def Op.fd : Op → Int
  | connect fd => fd
  | recv fd _ _ => fd
  | send fd _ _ => fd

/-- An `io_uring_sqe`. -/
structure Sqe where
  op : Op
  userData : Nat
  deriving DecidableEq, Repr

def Sqe.fd (e : Sqe) : Int := e.op.fd

/-- An `io_uring_cqe`, with the operation it is for. -/
structure Completion where
  sqe : Sqe
  res : Int
  deriving DecidableEq, Repr

/-- Where the program stands: in the loop over the clients, at `while (!finished())`, or among the
completions of a batch, with those that are still to be handled. -/
inductive Place
  | setup
  | top
  | batch (cqes : List Completion)
  deriving DecidableEq, Repr

/-- The local variables of `startTest`, and the operations in the ring: the entries that are not
submitted, and those that have not completed. -/
structure Tool where
  contexts : Nat → EventContext
  poolElState : List Bool
  clSockets : List Int
  sq : List Sqe
  inflight : List Sqe
  finishedCount : Int
  place : Place

/-- `strlen`. -/
def strlen (msg : List Byte) : Nat := (msg.takeWhile (· ≠ 0)).length

namespace Tool

variable (config : Config) (room : Nat → Bool) (σ : Tool)

/-! ## The pool -/

/-- The pool is filled. -/
def new : Tool where
  contexts i := { key := i }
  poolElState := List.replicate (config.clSize + 10) true
  clSockets := []
  sq := []
  inflight := []
  finishedCount := 0
  place := .setup

/-- `getEventContext`, null when no context is free. -/
def getEventContext : Option Nat × Tool :=
  match Slots.firstFree σ.poolElState with
  | some i => (some i, { σ with poolElState := σ.poolElState.set i false })
  | none => (none, σ)

/-- `putEventContext`. -/
def putEventContext (event : Nat) : Option Tool :=
  let context := σ.contexts event
  if 0 ≤ context.key ∧ context.key.toNat < σ.poolElState.length then
    some { σ with
      contexts := update σ.contexts event
        { context with fd := -1, type := .UNDEF, buffer := List.replicate bufferLen 0 }
      poolElState := σ.poolElState.set context.key.toNat true }
  else none

/-! ## Preparing operations -/

/-- `setConnectEvent`. -/
def setConnectEvent (fd : Int) : Tool :=
  match σ.getEventContext with
  | (none, σ) => σ
  | (some context, σ) =>
      let σ := { σ with
        contexts := update σ.contexts context
          { σ.contexts context with fd := fd, type := .CONNECT } }
      if room σ.sq.length then { σ with sq := σ.sq ++ [⟨.connect fd, context⟩] } else σ

/-- An entry is taken for an operation of a type, and the context is written to. Without an entry
nothing is done, and null is not looked at. -/
def setEvent (context : Option Nat) (write : EventContext → EventContext) (prep : Nat → Op) :
    Option Tool :=
  if room σ.sq.length then do
    let context ← context
    return { σ with
      contexts := update σ.contexts context (write (σ.contexts context))
      sq := σ.sq ++ [⟨prep context, context⟩] }
  else some σ

/-- `setReadEvent`. -/
def setReadEvent (context : Option Nat) (fd : Int) : Option Tool :=
  σ.setEvent room context (fun c => { c with type := .RECV, fd := fd })
    fun context => .recv fd context bufferLen

/-- `setSendEvent`; the message is shorter than the buffer. -/
def setSendEvent (context : Option Nat) (fd : Int) (msg : List Byte) (msgLen : Nat) :
    Option Tool :=
  σ.setEvent room context
    (fun c =>
      { c with type := .SEND, fd := fd, buffer := msg.take msgLen ++ c.buffer.drop msgLen })
    fun context => .send fd context msgLen

/-! ## Completions -/

/-- The branches of `switch (eventContext->type)`. -/
def dispatch (eventContext : EventContext) : Option Tool :=
  match eventContext.type with
  | .CONNECT =>
      let (context, σ) := σ.getEventContext
      σ.setSendEvent room context eventContext.fd config.msg (strlen config.msg)
  | .RECV =>
      if σ.finishedCount + 1 < 2 ^ 31 then
        let σ := { σ with finishedCount := σ.finishedCount + 1 }
        let (context, σ) := σ.getEventContext
        σ.setSendEvent room context eventContext.fd config.msg (strlen config.msg)
      else none
  | .SEND =>
      let (context, σ) := σ.getEventContext
      σ.setReadEvent room context eventContext.fd
  | .UNDEF | .ACCEPT => some σ

/-- The body of the loop over a batch. An error gives the context back and asks for nothing. -/
def handle (c : Completion) : Option Tool :=
  if c.res < 0 then σ.putEventContext c.sqe.userData
  else do
    let σ ← σ.dispatch config room (σ.contexts c.sqe.userData)
    σ.putEventContext c.sqe.userData

/-- `io_uring_submit`. -/
def submit : Tool := { σ with sq := [], inflight := σ.inflight ++ σ.sq }

/-- `finished`, when `overTime` whole seconds have passed. -/
def finished (overTime : Nat) : Bool :=
  match config.mode with
  | .Time => config.durationTime % 2 ^ 32 ≤ overTime
  | .Amount => config.requestSize ≤ σ.finishedCount

end Tool

/-! ## Runs -/

/-- What happens next. -/
inductive Event
  | socket (fd : Int)
  | submit
  | peek (overTime : Nat) (batch : List Completion)
  | cqe

/-- The next step of `startTest`. A batch is of operations that are in flight, and what is not in
it stays there; every result is possible. -/
inductive Next (config : Config) (room : Nat → Bool) : Tool → Event → Tool → Prop
  | socket {σ : Tool} (fd : Int) (hplace : σ.place = .setup)
      (hmore : σ.clSockets.length < config.clSize) :
      Next config room σ (.socket fd)
        { σ.setConnectEvent room fd with clSockets := σ.clSockets ++ [fd] }
  | start {σ : Tool} (hplace : σ.place = .setup) (hall : σ.clSockets.length = config.clSize) :
      Next config room σ .submit { σ.submit with place := .top }
  | peek {σ : Tool} (overTime : Nat) (batch : List Completion) (rest : List Sqe)
      (hplace : σ.place = .top) (hgoes : σ.finished config overTime = false)
      (hsize : batch.length ≤ 1024)
      (hcompleted : σ.inflight.Perm (batch.map Completion.sqe ++ rest)) :
      Next config room σ (.peek overTime batch)
        { σ with inflight := rest, place := .batch batch }
  | cqe {σ τ : Tool} (c : Completion) (cs : List Completion) (hplace : σ.place = .batch (c :: cs))
      (hhandle : ({ σ with place := .batch cs } : Tool).handle config room c = some τ) :
      Next config room σ .cqe τ
  | turn {σ : Tool} (hplace : σ.place = .batch []) :
      Next config room σ .submit { σ.submit with place := .top }

/-- The runs of `startTest`. -/
def runs (config : Config) (room : Nat → Bool) : TSys Tool Event where
  init σ := σ = .new config
  step := Next config room

end LearnSpace.QpsTool
