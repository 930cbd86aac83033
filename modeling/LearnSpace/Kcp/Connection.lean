import LearnSpace.Keel.TSys
import LearnSpace.Kcp.Exchange
import LearnSpace.Kcp.SendRecv

/-!
# A connection

Two control blocks with the same `conv`, and a network between them that loses, repeats, reorders
and joins datagrams: to `ikcp_input` goes any choice of what the other side has ever passed to its
output callback. The calls of the two sides come in any order.

Both directions are runs of the protocol that repeats until it is acknowledged
(`connection_refines`), so what `ikcp_recv` has returned is the beginning of what `ikcp_send` has
accepted, message by message (`returned_in_order`), and byte by byte with streaming
(`returned_bytes_in_order`).
-/

namespace LearnSpace.Kcp

open Keel

/-! ## The calls -/

/-- A call on one side. `input picks` is `ikcp_input` of datagrams of the other side, which are
given by their positions, one behind the other. `stream` is an assignment to the field. -/
inductive Call
  | send (buffer : List Byte)
  | recv (len : Int)
  | update (current : UInt32)
  | flush
  | input (picks : List Nat)
  | setmtu (mtu : Int)
  | interval (interval : Int)
  | nodelay (nodelay interval resend nc : Int)
  | wndsize (sndwnd rcvwnd : Int)
  | stream (on : Int)
  deriving DecidableEq, Repr

/-- One side, and what has happened to it. -/
structure Endpoint where
  kcp : IKCPCB
  /-- the messages for which `ikcp_send` has returned 0 -/
  accepted : List (List Byte) := []
  /-- the buffers that `ikcp_send` was given, and what it has returned for them -/
  sends : List (List Byte × Int) := []
  /-- the bytes that it has put into the queue -/
  queued : List Byte := []
  /-- how many segments it has made for them -/
  made : Nat := 0
  /-- the messages that `ikcp_recv` has returned and taken from the queue -/
  returned : List (List Byte) := []
  /-- the datagrams that were passed to the output callback -/
  wire : List (List Byte) := []
  deriving DecidableEq

namespace Endpoint

/-- The bytes of some segments. -/
def bytesOf (segs : List IKCPSEG) : List Byte := segs.flatMap IKCPSEG.data

variable (e : Endpoint)

def send (buffer : List Byte) : Option Endpoint := do
  let (kcp, ret) ← e.kcp.ikcp_send buffer buffer.length
  return { e with
    kcp
    accepted := if ret = 0 then e.accepted ++ [buffer] else e.accepted
    sends := e.sends ++ [(buffer, ret)]
    queued := e.queued ++ (bytesOf kcp.snd_queue).drop (bytesOf e.kcp.snd_queue).length
    made := e.made + (kcp.snd_queue.length - e.kcp.snd_queue.length) }

def recv (len : Int) : Option Endpoint := do
  let (kcp, ret, bytes) ← e.kcp.ikcp_recv len
  return { e with
    kcp
    returned := e.returned ++ if 0 ≤ len ∧ 0 ≤ ret then [bytes] else [] }

/-- A call that sends datagrams. -/
def output (result : Option (IKCPCB × List (List Byte))) : Option Endpoint := do
  let (kcp, datagrams) ← result
  return { e with kcp, wire := e.wire ++ datagrams }

/-- A call on this side, with what the other one has sent. `none` is a call that is undefined. -/
def call (sent : List (List Byte)) : Call → Option Endpoint
  | .send buffer => e.send buffer
  | .recv len => e.recv len
  | .update current => e.output (e.kcp.ikcp_update current)
  | .flush => e.output e.kcp.ikcp_flush
  | .input picks => do
    let (kcp, _) ← e.kcp.ikcp_input (picks.map fun i => sent.getD i []).flatten
    return { e with kcp }
  | .setmtu mtu => some { e with kcp := (e.kcp.ikcp_setmtu mtu).1 }
  | .interval interval => some { e with kcp := e.kcp.ikcp_interval interval }
  | .nodelay nodelay interval resend nc =>
    some { e with kcp := e.kcp.ikcp_nodelay nodelay interval resend nc }
  | .wndsize sndwnd rcvwnd => some { e with kcp := e.kcp.ikcp_wndsize sndwnd rcvwnd }
  | .stream on => some { e with kcp := { e.kcp with stream := on } }

end Endpoint

/-- A number that is an `int`. -/
def IsInt (x : Int) : Prop := -2 ^ 31 ≤ x ∧ x < 2 ^ 31

instance (x : Int) : Decidable (IsInt x) := inferInstanceAs (Decidable (_ ∧ _))

/-- A call with arguments that can be, and with a mode of transfer that is used. -/
def Call.Ok (modes : Int → Prop) : Call → Prop
  | .send buffer => buffer.length < 2 ^ 31
  | .recv len => IsInt len
  | .setmtu mtu => IsInt mtu
  | .interval ms => IsInt ms
  | .nodelay on ms resend nc => IsInt on ∧ IsInt ms ∧ IsInt resend ∧ IsInt nc
  | .wndsize sndwnd rcvwnd => IsInt sndwnd ∧ IsInt rcvwnd
  | .stream on => modes on
  | _ => True

instance (modes : Int → Prop) [DecidablePred modes] : DecidablePred (Call.Ok modes)
  | .send _ => inferInstanceAs (Decidable (_ < _))
  | .recv _ | .setmtu _ | .interval _ => inferInstanceAs (Decidable (IsInt _))
  | .nodelay _ _ _ _ => inferInstanceAs (Decidable (_ ∧ _))
  | .wndsize _ _ => inferInstanceAs (Decidable (_ ∧ _))
  | .stream on => inferInstanceAs (Decidable (modes on))
  | .update _ | .flush | .input _ => inferInstanceAs (Decidable True)

/-- The two sides. -/
abbrev Link := Bool → Endpoint

/-- A call on one side of a connection. -/
def Link.step (link : Link) (side : Bool) (call : Call) : Option Link :=
  ((link side).call (link !side).wire call).map (Function.update link side)

/-- Two new control blocks. -/
def Link.new (conv : UInt32) : Link := fun _ => { kcp := ikcp_create conv }

/-- The connection, with the values of `stream` that are used. A call that is undefined leads to no
state. -/
def connection (conv : UInt32) (modes : Int → Prop) : TSys Link (Bool × Call) where
  init link := link = Link.new conv
  step link e link' := e.2.Ok modes ∧ link.step e.1 e.2 = some link'

/-- Some calls, one after the other. -/
def Link.run (link : Link) (calls : List (Bool × Call)) : Option Link :=
  calls.foldlM (fun link e => link.step e.1 e.2) link

theorem reachable_run {conv : UInt32} {modes : Int → Prop} {link link' : Link}
    {calls : List (Bool × Call)} (h : (connection conv modes).Reachable link)
    (hok : ∀ e ∈ calls, e.2.Ok modes) (hrun : link.run calls = some link') :
    (connection conv modes).Reachable link' := by
  induction calls generalizing link with
  | nil =>
      cases hrun
      exact h
  | cons e calls ih =>
      rw [Link.run, List.foldlM_cons] at hrun
      obtain ⟨next, hstep, hrest⟩ := Option.bind_eq_some_iff.mp hrun
      exact ih (h.step ⟨hok e List.mem_cons_self, hstep⟩) (fun c hc => hok c (.tail _ hc)) hrest

/-- What is seen behind some calls on two new control blocks is seen of a reachable state. -/
theorem exists_reachable {β : Type} {conv : UInt32} {modes : Int → Prop} {f : Link → β} {x : β}
    {calls : List (Bool × Call)} (hok : ∀ e ∈ calls, e.2.Ok modes)
    (hrun : ((Link.new conv).run calls).map f = some x) :
    ∃ link, (connection conv modes).Reachable link ∧ f link = x := by
  obtain ⟨link, hlink, hx⟩ := Option.map_eq_some_iff.mp hrun
  exact ⟨link, reachable_run (.init rfl) hok hlink, hx⟩

/-- What every call on a side keeps of it holds of both sides. -/
theorem reachable_side {P : Endpoint → Prop} {conv : UInt32} {modes : Int → Prop} {link : Link}
    (hnew : P { kcp := ikcp_create conv })
    (hcall : ∀ {e e' : Endpoint} {sent : List (List Byte)} {c : Call}, P e → c.Ok modes →
      e.call sent c = some e' → P e')
    (h : (connection conv modes).Reachable link) (side : Bool) : P (link side) := by
  induction h with
  | init hinit =>
      subst hinit
      exact hnew
  | @step link e link' _ hstep ih =>
      obtain ⟨hok, hstep⟩ := hstep
      obtain ⟨e', hmade, rfl⟩ := Option.map_eq_some_iff.mp hstep
      by_cases hq : side = e.1
      · subst hq
        rw [Function.update_self]
        exact hcall ih hok hmade
      · rw [Function.update_of_ne hq]
        exact ih

/-- The numbers of segments of both sides are less than 2^31. -/
theorem made_lt {link : Link} {m n : Nat} (hfalse : (link false).made = m)
    (htrue : (link true).made = n) (hm : m < 2 ^ 31) (hn : n < 2 ^ 31) (side : Bool) :
    (link side).made < 2 ^ 31 := by
  cases side with
  | false => exact hfalse ▸ hm
  | true => exact htrue ▸ hn

/-! ## One side -/

/-- The pieces of everything that was put into the queue. -/
def piecesOf (kcp : IKCPCB) (s : Arq Piece) : List Piece :=
  s.sent ++ kcp.snd_queue.map IKCPSEG.piece

/-- What a call of `ikcp_send` puts into the queue: the beginning of its buffer, and all of it if
the call has returned 0. -/
def Takes (send : List Byte × Int) (part : List Byte) : Prop :=
  part <+: send.1 ∧ (send.2 = 0 → part = send.1)

/-- The bytes that some calls of `ikcp_send` have queued are the parts they have taken, in order. -/
def Queues (sends : List (List Byte × Int)) (queued : List Byte) : Prop :=
  ∃ parts, List.Forall₂ Takes sends parts ∧ queued = parts.flatten

theorem Queues.snoc {sends : List (List Byte × Int)} {queued buffer part rest : List Byte}
    {ret : Int} (h : Queues sends queued) (hpart : part ++ rest = buffer)
    (hrest : ret = 0 → rest = []) : Queues (sends ++ [(buffer, ret)]) (queued ++ part) := by
  obtain ⟨parts, hparts, rfl⟩ := h
  have htakes : Takes (buffer, ret) part := by
    refine ⟨⟨rest, hpart⟩, fun hret => ?_⟩
    rw [← hpart, hrest hret, List.append_nil]
  refine ⟨parts ++ [part], List.rel_append hparts (.cons htakes .nil), ?_⟩
  rw [List.flatten_append, List.flatten_singleton]

/-- The pieces of what an endpoint has sent. -/
structure Outgoing (modes : Int → Prop) (pieces : List Piece) (e : Endpoint) : Prop where
  made : pieces.length = e.made
  framed : Framed (pieces.map Prod.fst)
  small : ∀ frg ∈ pieces.map Prod.fst, frg.toNat < 127
  queued : pieces.flatMap Prod.snd = e.queued
  parts : Queues e.sends e.queued
  accepted : (∀ mode, modes mode → mode = 0) → messages pieces = e.accepted

/-- The pieces of what an endpoint has returned. -/
structure Incoming (taken : List Piece) (e : Endpoint) : Prop where
  framed : Framed (taken.map Prod.fst)
  returned : messages taken = e.returned

/-- What holds of one side, which is the sender of `s` and the receiver of `r`. -/
structure Side (conv : UInt32) (modes : Int → Prop) (e : Endpoint) (s r : Arq Piece)
    (taken : List Piece) : Prop where
  speaks : Speaks e.kcp s r taken
  same_conv : e.kcp.conv = conv
  sized : e.kcp.Sized
  stream : e.kcp.stream = 0 ∨ modes e.kcp.stream
  outgoing : Outgoing modes (piecesOf e.kcp s) e
  incoming : Incoming taken e
  wire : ∀ d ∈ e.wire, Carries (Fine conv s r) d

variable {conv : UInt32} {modes : Int → Prop} {e e' : Endpoint} {s s' r r' : Arq Piece}
  {taken taken' : List Piece} {kcp kcp' : IKCPCB} {datagrams : List (List Byte)}

namespace Side

theorem new (conv : UInt32) (modes : Int → Prop) :
    Side conv modes { kcp := ikcp_create conv } {} {} [] where
  speaks :=
    { sender := ⟨rfl, .nil, fun _ h => absurd h List.not_mem_nil, fun n => by simp [ikcp_create],
        fun _ h => absurd h List.not_mem_nil, fun _ h => absurd h List.not_mem_nil⟩
      receiver := ⟨rfl, rfl, rfl, .nil, fun n x => by simp [ikcp_create]⟩
      acked := fun _ h => absurd h List.not_mem_nil }
  same_conv := rfl
  sized := ⟨show 0 < 1376 by decide, show 1376 < 2 ^ 31 by decide⟩
  stream := .inl rfl
  outgoing := ⟨rfl, framed_nil, fun _ h => absurd h List.not_mem_nil, rfl, ⟨[], .nil, rfl⟩,
    fun _ => rfl⟩
  incoming := ⟨framed_nil, rfl⟩
  wire _ h := absurd h List.not_mem_nil

/-- The other side, when this one has taken some steps. -/
theorem peer (h : Side conv modes e r s taken) (hsends : Arq.Sends s s')
    (hreceives : Arq.Receives r r') : Side conv modes e r' s' taken := by
  have hs := hsends.frame
  have hr := hreceives.frame
  have hpieces : piecesOf e.kcp r' = piecesOf e.kcp r := by rw [piecesOf, piecesOf, hr.sent]
  refine ⟨⟨h.speaks.sender.receive hr, h.speaks.receiver.frame hs.out hs.early,
    h.speaks.acked.mono rfl ?_⟩, h.same_conv, h.sized, h.stream, hpieces ▸ h.outgoing, h.incoming, ?_⟩
  · intro n hn
    rw [Arq.Received, hs.out, hs.early]
    exact hn
  · intro d hd
    refine (h.wire d hd).imp fun seg hseg => hseg.mono ?_ ?_ ?_
    · exact hr.items.ge
    · exact hs.acks.ge
    · exact hs.unas.ge

/-- A call that neither sends nor takes a message. -/
theorem keep (h : Side conv modes e s r taken) (hspeaks : Speaks kcp s' r' taken)
    (hpieces : piecesOf kcp s' = piecesOf e.kcp s) (hconv : kcp.conv = e.kcp.conv)
    (hsized : kcp.Sized) (hstream : kcp.stream = 0 ∨ modes kcp.stream)
    (hwire : ∀ d ∈ datagrams, Carries (Fine conv s' r') d) :
    Side conv modes { e with kcp := kcp, wire := datagrams } s' r' taken where
  speaks := hspeaks
  same_conv := hconv.trans h.same_conv
  sized := hsized
  stream := hstream
  outgoing := by
    obtain ⟨hmade, hframed, hsmall, hqueued, hparts, haccepted⟩ := h.outgoing
    rw [← hpieces] at hmade hframed hsmall hqueued haccepted
    exact ⟨hmade, hframed, hsmall, hqueued, hparts, haccepted⟩
  incoming := ⟨h.incoming.framed, h.incoming.returned⟩
  wire := hwire

/-- A setting. -/
theorem set (h : Side conv modes e s r taken) (hsending : kcp.sending = e.kcp.sending)
    (hreceiving : kcp.receiving = e.kcp.receiving) (hconv : kcp.conv = e.kcp.conv)
    (hsized : kcp.Sized) (hstream : kcp.stream = 0 ∨ modes kcp.stream) :
    Side conv modes { e with kcp := kcp } s r taken := by
  have hqueue : kcp.snd_queue = e.kcp.snd_queue := congrArg Sending.snd_queue hsending
  refine h.keep ⟨?_, ?_, ?_⟩ ?_ hconv hsized hstream h.wire
  · exact h.speaks.sender.congr hconv (congrArg Sending.snd_nxt hsending) hqueue
      (congrArg (fun half => half.snd_buf.map IKCPSEG.key) hsending)
  · exact h.speaks.receiver.keep hreceiving
  · exact h.speaks.acked.mono (congrArg Receiving.acklist hreceiving) fun _ hn => hn
  · rw [piecesOf, piecesOf, hqueue]

/-! ## The calls -/

/-- The steps that a call is of both directions. -/
def Steps (conv : UInt32) (modes : Int → Prop) (s r : Arq Piece) (e : Endpoint) : Prop :=
  ∃ s' r' taken, Arq.Sends s s' ∧ Arq.Receives r r' ∧ Side conv modes e s' r' taken

/-- The number of segments made is a bound for those that have a number. -/
theorem safe (h : Side conv modes e s r taken) (hsound : s.Sound) (hmade : e.made < 2 ^ 31) :
    Safe s ∧ s.sent.length + e.kcp.snd_queue.length < 2 ^ 31 := by
  have hlength := h.outgoing.made
  rw [piecesOf, List.length_append, List.length_map] at hlength
  exact ⟨⟨hsound, by omega⟩, by omega⟩

theorem wire_mono (h : Side conv modes e s r taken) (hsends : Arq.Sends s s')
    (hreceives : Arq.Receives r r') : ∀ d ∈ e.wire, Carries (Fine conv s' r') d := by
  intro d hd
  refine (h.wire d hd).imp fun seg hseg => hseg.mono ?_ ?_ ?_
  · exact hsends.frame.items
  · exact hreceives.frame.acks
  · exact hreceives.frame.unas

theorem flush (h : Side conv modes e s r taken) (hs : s.Sound) (hr : Safe r)
    (hmade : e.made < 2 ^ 31) (hflush : e.kcp.ikcp_flush = some (kcp', datagrams)) :
    Steps conv modes s r { e with kcp := kcp', wire := e.wire ++ datagrams } := by
  obtain ⟨s', r', hsends, hreceives, hspeaks, hpieces, hfine⟩ :=
    h.speaks.flush hr (h.safe hs hmade).2 hflush
  have hsettings := IKCPCB.flush_settings hflush
  have hmss : kcp'.mss = e.kcp.mss := congrArg Settings.mss hsettings
  refine ⟨s', r', taken, hsends, hreceives, h.keep hspeaks hpieces
    (congrArg Settings.conv hsettings) ⟨hmss ▸ h.sized.pos, hmss ▸ h.sized.lt⟩ ?_ ?_⟩
  · rw [show kcp'.stream = e.kcp.stream from congrArg Settings.stream hsettings]
    exact h.stream
  · intro d hd
    rcases List.mem_append.mp hd with hd | hd
    · exact h.wire_mono hsends hreceives d hd
    · exact h.same_conv ▸ hfine d hd

theorem update (h : Side conv modes e s r taken) (hs : s.Sound) (hr : Safe r)
    (hmade : e.made < 2 ^ 31) {current : UInt32}
    (hupdate : e.kcp.ikcp_update current = some (kcp', datagrams)) :
    Steps conv modes s r { e with kcp := kcp', wire := e.wire ++ datagrams } := by
  obtain ⟨updated, ts_flush, -, ⟨rfl, rfl⟩ | hflush⟩ := IKCPCB.update_cases hupdate
  · rw [List.append_nil]
    exact ⟨s, r, taken, .refl, .refl, h.set rfl rfl rfl ⟨h.sized.pos, h.sized.lt⟩ h.stream⟩
  · have hclock : Side conv modes
        { e with
          kcp := { e.kcp with current := current, updated := updated, ts_flush := ts_flush } }
        s r taken := h.set rfl rfl rfl ⟨h.sized.pos, h.sized.lt⟩ h.stream
    exact hclock.flush hs hr hmade hflush

theorem input (h : Side conv modes e s r taken) (hs : s.Sound) (hr : Safe r)
    (hmade : e.made < 2 ^ 31) {data : List Byte} {ret : Int}
    (hdata : Carries (Fine conv r s) data) (hinput : e.kcp.ikcp_input data = some (kcp', ret)) :
    Steps conv modes s r { e with kcp := kcp' } := by
  obtain ⟨s', r', hsends, hsent, hreceives, hspeaks, hqueue⟩ :=
    h.speaks.input (h.safe hs hmade).1 hr (h.same_conv.symm ▸ hdata) hinput
  have hsettings := IKCPCB.input_settings hinput
  have hmss : kcp'.mss = e.kcp.mss := congrArg Settings.mss hsettings
  refine ⟨s', r', taken, hsends, hreceives, h.keep hspeaks ?_ (congrArg Settings.conv hsettings)
    ⟨hmss ▸ h.sized.pos, hmss ▸ h.sized.lt⟩ ?_ (h.wire_mono hsends hreceives)⟩
  · rw [piecesOf, piecesOf, hsent, hqueue]
  · rw [show kcp'.stream = e.kcp.stream from congrArg Settings.stream hsettings]
    exact h.stream

theorem same (h : Side conv modes e s r taken) (hsame : IKCPCB.SameTransfer e.kcp kcp) :
    Side conv modes { e with kcp := kcp } s r taken := by
  refine h.set hsame.sending hsame.receiving hsame.conv ?_ (hsame.stream ▸ h.stream)
  exact ⟨hsame.mss ▸ h.sized.pos, hsame.mss ▸ h.sized.lt⟩

theorem send (h : Side conv modes e s r taken) {buffer : List Byte} (hl : buffer.length < 2 ^ 31)
    (hsend : e.send buffer = some e') : Side conv modes e' s r taken := by
  obtain ⟨⟨kcp, ret⟩, hcall, heq⟩ := Option.bind_eq_some_iff.mp hsend
  cases heq
  have hfits : ∀ seg ∈ e.kcp.snd_queue, seg.Fits := fun seg hseg =>
    h.speaks.sender.fits seg (List.mem_append_left _ hseg)
  obtain ⟨filled, segs, hqueued, rfl⟩ := IKCPCB.send_spec h.sized hl hfits hcall
  have hframed := h.outgoing.framed
  have hsmall := h.outgoing.small
  rw [piecesOf, List.map_append, frgs_pieces] at hframed hsmall
  have hfrgs := hqueued.frgs hframed.last_right
  rw [← hfrgs] at hframed hsmall
  refine ⟨⟨?_, ?_, h.speaks.acked⟩, h.same_conv, ⟨h.sized.pos, h.sized.lt⟩, h.stream,
    ⟨?_, ?_, ?_, ?_, ?_, ?_⟩, ⟨h.incoming.framed, h.incoming.returned⟩, h.wire⟩
  · exact (h.speaks.sender.requeue hqueued.fits).congr rfl rfl rfl rfl
  · exact h.speaks.receiver.congr rfl rfl rfl rfl
  · have hmade := h.outgoing.made
    have hlength := hqueued.length
    simp only [piecesOf, List.length_append, List.length_map] at hmade ⊢
    omega
  · have hnew := hframed.append hqueued.framed
    rw [List.append_assoc, ← List.map_append] at hnew
    rw [piecesOf, List.map_append, frgs_pieces]
    exact hnew
  · intro frg hfrg
    rw [piecesOf, List.map_append, frgs_pieces, List.map_append, ← List.append_assoc] at hfrg
    rcases List.mem_append.mp hfrg with hfrg | hfrg
    · exact hsmall frg hfrg
    · obtain ⟨seg, hseg, rfl⟩ := List.mem_map.mp hfrg
      exact hqueued.small seg hseg
  · obtain ⟨part, rest, -, -, hbytes⟩ := hqueued.bytes
    have hold := h.outgoing.queued
    rw [piecesOf, List.flatMap_append, bytes_pieces] at hold ⊢
    show s.sent.flatMap Prod.snd ++ (filled ++ segs).flatMap IKCPSEG.data =
      e.queued ++ ((filled ++ segs).flatMap IKCPSEG.data).drop
        (e.kcp.snd_queue.flatMap IKCPSEG.data).length
    rw [hbytes, List.drop_left, ← hold, List.append_assoc]
  · obtain ⟨part, rest, hpart, hrest, hbytes⟩ := hqueued.bytes
    have hparts := h.outgoing.parts.snoc hpart hrest
    show Queues _ (e.queued ++ ((filled ++ segs).flatMap IKCPSEG.data).drop
      (e.kcp.snd_queue.flatMap IKCPSEG.data).length)
    rwa [hbytes, List.drop_left]
  · intro hmodes
    have hstream : e.kcp.stream = 0 := h.stream.elim id (hmodes _)
    obtain ⟨hfilled, hmessage⟩ := hqueued.message hstream
    have hpieces : piecesOf { e.kcp with
        snd_queue := filled ++ segs, nsnd_que := e.kcp.nsnd_que + UInt32.ofNat segs.length } s =
        piecesOf e.kcp s ++ segs.map IKCPSEG.piece := by
      simp only [piecesOf, hfilled, List.map_append, List.append_assoc]
    rw [hpieces, messages_append h.outgoing.framed, h.outgoing.accepted hmodes]
    rcases hmessage with ⟨rfl, hone⟩ | ⟨rfl, rfl⟩
    · rw [hone]
      rfl
    · exact List.append_nil _

/-- What waits in the queue is a part of what the other side has sent, so its fragments are
counted down too. -/
theorem queue_framed (h : Side conv modes e s r taken) (hsound : r.Sound) {peer : Endpoint}
    (hout : Outgoing modes (piecesOf peer.kcp r) peer) :
    (e.kcp.rcv_queue.map IKCPSEG.frg).IsChain (fun a b => a ≠ 0 → a = b + 1) ∧
      ∀ seg ∈ e.kcp.rcv_queue, seg.frg.toNat < 127 := by
  obtain ⟨rest, hrest⟩ := hsound.out.trans (List.prefix_append r.sent
    (peer.kcp.snd_queue.map IKCPSEG.piece))
  have hparts : taken.map Prod.fst ++ e.kcp.rcv_queue.map IKCPSEG.frg ++ rest.map Prod.fst =
      (piecesOf peer.kcp r).map Prod.fst := by
    rw [← frgs_pieces, ← List.map_append, ← h.speaks.receiver.queue, ← List.map_append, hrest,
      piecesOf]
  have hchain := hout.framed.counted
  rw [← hparts] at hchain
  refine ⟨hchain.left_of_append.right_of_append, fun seg hseg => hout.small seg.frg ?_⟩
  rw [← hparts]
  exact List.mem_append_left _ (List.mem_append_right _ (List.mem_map_of_mem hseg))

theorem recv (h : Side conv modes e s r taken) (hr : Safe r) {peer : Endpoint}
    (hout : Outgoing modes (piecesOf peer.kcp r) peer) {len : Int} (hrecv : e.recv len = some e') :
    Steps conv modes s r e' := by
  obtain ⟨⟨kcp, ret, bytes⟩, hcall, heq⟩ := Option.bind_eq_some_iff.mp hrecv
  cases heq
  obtain ⟨hchain, hfrg⟩ := h.queue_framed hr.sound hout
  obtain ⟨r', taken', hreceives, hreceiver, hframed, hmessages⟩ :=
    h.speaks.receiver.recv hr.sound hr.short hchain
      (fun seg hseg => Nat.lt_trans (hfrg seg hseg) (by decide)) hcall
  obtain ⟨hsettings, hsending, hlist⟩ := IKCPCB.recv_keeps hcall
  have hmss : kcp.mss = e.kcp.mss := congrArg Settings.mss hsettings
  have hpieces : piecesOf kcp s = piecesOf e.kcp s := by
    rw [piecesOf, piecesOf, show kcp.snd_queue = _ from congrArg Sending.snd_queue hsending]
    rfl
  refine ⟨s, r', taken ++ taken', .refl, hreceives, ?_⟩
  refine ⟨⟨h.speaks.sender.keep hsettings hsending, hreceiver,
    h.speaks.acked.mono hlist hreceives.frame.received⟩,
    (congrArg Settings.conv hsettings).trans h.same_conv,
    ⟨hmss ▸ h.sized.pos, hmss ▸ h.sized.lt⟩, ?_, ?_, ⟨?_, ?_⟩, h.wire_mono .refl hreceives⟩
  · rw [show kcp.stream = e.kcp.stream from congrArg Settings.stream hsettings]
    exact h.stream
  · obtain ⟨hmade, hframed, hsmall, hqueued, hparts, haccepted⟩ := h.outgoing
    rw [← hpieces] at hmade hframed hsmall hqueued haccepted
    exact ⟨hmade, hframed, hsmall, hqueued, hparts, haccepted⟩
  · rw [List.map_append]
    exact h.incoming.framed.append hframed
  · rw [messages_append h.incoming.framed, h.incoming.returned, hmessages]

/-- **A call** is some steps of both directions. -/
theorem call (h : Side conv modes e s r taken) (hs : s.Sound) (hr : Safe r) {peer : Endpoint}
    (hpeer : Side conv modes peer r s taken') {c : Call} (hok : c.Ok modes)
    (hcall : e.call peer.wire c = some e') (hmade : e.made < 2 ^ 31) :
    Steps conv modes s r e' := by
  have hsteps {e' : Endpoint} (h' : Side conv modes e' s r taken) : Steps conv modes s r e' :=
    ⟨s, r, taken, .refl, .refl, h'⟩
  cases c with
  | send buffer => exact hsteps (h.send hok hcall)
  | recv len => exact h.recv hr hpeer.outgoing hcall
  | update current =>
      obtain ⟨⟨kcp, datagrams⟩, hupdate, heq⟩ := Option.bind_eq_some_iff.mp hcall
      cases heq
      exact h.update hs hr hmade hupdate
  | flush =>
      obtain ⟨⟨kcp, datagrams⟩, hflush, heq⟩ := Option.bind_eq_some_iff.mp hcall
      cases heq
      exact h.flush hs hr hmade hflush
  | input picks =>
      obtain ⟨⟨kcp, ret⟩, hinput, heq⟩ := Option.bind_eq_some_iff.mp hcall
      cases heq
      refine h.input hs hr hmade (.flatten fun d hd => ?_) hinput
      obtain ⟨i, -, rfl⟩ := List.mem_map.mp hd
      by_cases hi : i < peer.wire.length
      · rw [List.getD_eq_getElem _ _ hi]
        exact hpeer.wire _ (List.getElem_mem hi)
      · rw [List.getD_eq_default _ _ (Nat.le_of_not_lt hi)]
        exact .nil
  | setmtu mtu =>
      cases hcall
      obtain ⟨hsending, hreceiving, hconv, hstream, -⟩ := IKCPCB.setmtu_keeps e.kcp mtu
      exact hsteps (h.set hsending hreceiving hconv (h.sized.setmtu hok.2) (hstream ▸ h.stream))
  | interval ms =>
      cases hcall
      exact hsteps (h.same (IKCPCB.interval_same _ ms))
  | nodelay on ms resend nc =>
      cases hcall
      exact hsteps (h.same (IKCPCB.nodelay_same _ on ms resend nc))
  | wndsize sndwnd rcvwnd =>
      cases hcall
      exact hsteps (h.same (IKCPCB.wndsize_same _ sndwnd rcvwnd))
  | stream on =>
      cases hcall
      exact hsteps (h.set rfl rfl rfl ⟨h.sized.pos, h.sized.lt⟩ (.inr hok))

end Side

/-- The number of segments made does not get less, and a message is accepted when it is sent. -/
theorem Endpoint.call_history {sent : List (List Byte)} {c : Call} (h : e.call sent c = some e') :
    e.made ≤ e'.made ∧ ∀ m ∈ e'.accepted, m ∈ e.accepted ∨ c = .send m := by
  have hsame {kcp : IKCPCB} {returned : List (List Byte)} {wire : List (List Byte)}
      (heq : { e with kcp, returned, wire } = e') :
      e.made ≤ e'.made ∧ ∀ m ∈ e'.accepted, m ∈ e.accepted ∨ c = .send m := by
    rw [← heq]
    exact ⟨Nat.le_refl _, fun m hm => .inl hm⟩
  cases c with
  | send buffer =>
      obtain ⟨⟨kcp, ret⟩, -, heq⟩ := Option.bind_eq_some_iff.mp h
      cases heq
      refine ⟨Nat.le_add_right _ _, fun m hm => ?_⟩
      dsimp only at hm
      split at hm
      · exact (List.mem_append.mp hm).imp_right fun hm => by rw [List.mem_singleton.mp hm]
      · exact .inl hm
  | recv len =>
      obtain ⟨⟨kcp, ret, bytes⟩, -, heq⟩ := Option.bind_eq_some_iff.mp h
      exact hsame (Option.some.inj heq)
  | update current =>
      obtain ⟨⟨kcp, datagrams⟩, -, heq⟩ := Option.bind_eq_some_iff.mp h
      exact hsame (Option.some.inj heq)
  | flush =>
      obtain ⟨⟨kcp, datagrams⟩, -, heq⟩ := Option.bind_eq_some_iff.mp h
      exact hsame (Option.some.inj heq)
  | input picks =>
      obtain ⟨⟨kcp, ret⟩, -, heq⟩ := Option.bind_eq_some_iff.mp h
      exact hsame (Option.some.inj heq)
  | setmtu _ | interval _ | nodelay _ _ _ _ | wndsize _ _ | stream _ =>
      exact hsame (Option.some.inj h)

theorem Endpoint.made_le {sent : List (List Byte)} {c : Call} (h : e.call sent c = some e') :
    e.made ≤ e'.made :=
  (Endpoint.call_history h).1

/-! ## Both sides -/

/-- Each direction is a state of the protocol that a run of it ends in: its sender is one side, and
its receiver the other. -/
def Linked (conv : UInt32) (modes : Int → Prop) (link : Link) : Prop :=
  ∃ (arq : Bool → Arq Piece) (taken : Bool → List Piece), ∀ side,
    (Arq.protocol Piece).Reachable (arq side) ∧
      Side conv modes (link side) (arq side) (arq !side) (taken side)

variable {link link' : Link} {side : Bool}

theorem linked_new (conv : UInt32) (modes : Int → Prop) : Linked conv modes (Link.new conv) :=
  ⟨fun _ => {}, fun _ => [], fun _ => ⟨.init rfl, Side.new conv modes⟩⟩

/-- The bound for all segments is one for those that have a number. -/
theorem Side.safe_of_reachable (h : Side conv modes e s r taken)
    (hreach : (Arq.protocol Piece).Reachable s) (hmade : e.made < 2 ^ 31) : Safe s :=
  (h.safe (Arq.protocol_sound s hreach) hmade).1

/-- **A call on one side is some steps of both directions.** -/
theorem Linked.step {c : Call} (h : Linked conv modes link) (hok : c.Ok modes)
    (hstep : link.step side c = some link') (hmade : ∀ side, (link' side).made < 2 ^ 31) :
    Linked conv modes link' := by
  obtain ⟨arq, taken, hside⟩ := h
  obtain ⟨e', hcall, rfl⟩ := Option.map_eq_some_iff.mp hstep
  have hnew := hmade side
  have hother := hmade !side
  rw [Function.update_self] at hnew
  rw [Function.update_of_ne (Bool.not_ne_self side)] at hother
  obtain ⟨hreach, hmine⟩ := hside side
  obtain ⟨hreach', hpeer⟩ := hside !side
  rw [Bool.not_not] at hpeer
  obtain ⟨s', r', taken', hsends, hreceives, hafter⟩ := hmine.call
    (Arq.protocol_sound _ hreach) (hpeer.safe_of_reachable hreach' hother) hpeer hok hcall
    (Nat.lt_of_le_of_lt (Endpoint.made_le hcall) hnew)
  refine ⟨Function.update (fun _ => r') side s', Function.update taken side taken', fun q => ?_⟩
  by_cases hq : q = side
  · subst hq
    rw [Function.update_self, Function.update_self, Function.update_self,
      Function.update_of_ne (Bool.not_ne_self q)]
    exact ⟨Arq.reachable_sends hreach hsends, hafter⟩
  · obtain rfl : q = !side := by cases q <;> cases side <;> simp_all
    rw [Bool.not_not, Function.update_self, Function.update_of_ne hq, Function.update_of_ne hq,
      Function.update_of_ne hq]
    exact ⟨Arq.reachable_receives hreach' hreceives, hpeer.peer hsends hreceives⟩

/-- **The connection refines the protocol.** In whatever order calls are made, and whatever the
network does, both directions are runs of the protocol, as long as fewer than 2^31 segments are
made for each. -/
theorem connection_refines (h : (connection conv modes).Reachable link)
    (hmade : ∀ side, (link side).made < 2 ^ 31) : Linked conv modes link := by
  induction h with
  | init hinit =>
      subst hinit
      exact linked_new conv modes
  | @step link e link' _ hstep ih =>
      obtain ⟨hok, hstep⟩ := hstep
      refine (ih fun q => ?_).step hok hstep hmade
      refine Nat.lt_of_le_of_lt ?_ (hmade q)
      obtain ⟨e', hcall, rfl⟩ := Option.map_eq_some_iff.mp hstep
      by_cases hq : q = e.1
      · subst hq
        rw [Function.update_self]
        exact Endpoint.made_le hcall
      · rw [Function.update_of_ne hq]

/-- What was returned comes of the beginning of the pieces that were sent. -/
theorem Side.taken_begins (h : Side conv modes e s r taken) (hsound : r.Sound)
    (peer : IKCPCB) : taken <+: piecesOf peer r := by
  have hout : taken <+: r.out := h.speaks.receiver.queue ▸ List.prefix_append _ _
  exact (hout.trans hsound.out).trans (List.prefix_append _ _)

/-- **Messages come once and in order.** In message mode what one side has returned is the
beginning of what the other one has accepted. -/
theorem returned_in_order (h : (connection conv (· = 0)).Reachable link)
    (hmade : ∀ side, (link side).made < 2 ^ 31) (side : Bool) :
    (link side).returned <+: (link !side).accepted := by
  obtain ⟨arq, taken, hside⟩ := connection_refines h hmade
  obtain ⟨hreach, hpeer⟩ := hside !side
  rw [Bool.not_not] at hpeer
  have hbegin := (hside side).2.taken_begins (Arq.protocol_sound _ hreach) (link !side).kcp
  rw [← (hside side).2.incoming.returned, ← hpeer.outgoing.accepted fun _ hmode => hmode]
  exact messages_prefix hbegin

/-- A message, which the other side gets twice, acknowledges and returns. -/
def hello : List (Bool × Call) :=
  [(false, .send [104, 105]), (false, .update 0), (false, .update 100), (true, .input [0, 0]),
    (true, .update 5), (false, .input [0]), (true, .recv 100)]

theorem returned_in_order_hello : ∃ link, (connection 7 (· = 0)).Reachable link ∧
    (link true).returned = [[104, 105]] ∧ (link true).returned <+: (link false).accepted := by
  have hrun : ((Link.new 7).run hello).map (fun link =>
      ((link true).returned, (link false).made, (link true).made)) = some ([[104, 105]], 1, 0) := by
    decide
  have hok : ∀ e ∈ hello, e.2.Ok (· = 0) := by decide
  obtain ⟨link, hreach, hend⟩ := exists_reachable hok hrun
  obtain ⟨hreturned, hmade⟩ := Prod.mk.inj hend
  obtain ⟨hfalse, htrue⟩ := Prod.mk.inj hmade
  have hmade := made_lt hfalse htrue (by decide) (by decide)
  exact ⟨link, hreach, hreturned, returned_in_order hreach hmade true⟩

/-- **Bytes come once and in order**, with streaming, without it, or with it at times: what one
side has returned is the beginning of what the calls of `ikcp_send` have taken on the other one. -/
theorem returned_bytes_in_order (h : (connection conv modes).Reachable link)
    (hmade : ∀ side, (link side).made < 2 ^ 31) (side : Bool) :
    (link side).returned.flatten <+: (link !side).queued ∧
      Queues (link !side).sends (link !side).queued := by
  obtain ⟨arq, taken, hside⟩ := connection_refines h hmade
  obtain ⟨hreach, hpeer⟩ := hside !side
  rw [Bool.not_not] at hpeer
  obtain ⟨rest, hrest⟩ := (hside side).2.taken_begins (Arq.protocol_sound _ hreach) (link !side).kcp
  refine ⟨?_, hpeer.outgoing.parts⟩
  rw [← (hside side).2.incoming.returned, flatten_messages (hside side).2.incoming.framed,
    ← hpeer.outgoing.queued, ← hrest, List.flatMap_append]
  exact List.prefix_append _ _

/-- Two messages that streaming puts into one segment. -/
def trickle : List (Bool × Call) :=
  [(false, .stream 1), (false, .send [104]), (false, .send [105]), (false, .update 0),
    (false, .update 100), (true, .input [0]), (true, .recv 100)]

theorem returned_bytes_in_order_trickle : ∃ link, (connection 7 fun _ => True).Reachable link ∧
    ((link true).returned, (link false).sends) = ([[104, 105]], [([104], 0), ([105], 0)]) ∧
      (link true).returned.flatten <+: (link false).queued ∧
      Queues (link false).sends (link false).queued := by
  have hrun : ((Link.new 7).run trickle).map (fun link =>
      (((link true).returned, (link false).sends), (link false).made, (link true).made)) =
        some (([[104, 105]], [([104], 0), ([105], 0)]), 1, 0) := by
    decide
  have hok : ∀ e ∈ trickle, e.2.Ok fun _ => True := by decide
  obtain ⟨link, hreach, hend⟩ := exists_reachable hok hrun
  obtain ⟨hreturned, hmade⟩ := Prod.mk.inj hend
  obtain ⟨hfalse, htrue⟩ := Prod.mk.inj hmade
  have hmade := made_lt hfalse htrue (by decide) (by decide)
  exact ⟨link, hreach, hreturned, returned_bytes_in_order hreach hmade true⟩

end LearnSpace.Kcp
