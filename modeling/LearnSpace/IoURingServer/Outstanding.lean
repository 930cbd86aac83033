import LearnSpace.IoURingServer.Server
import LearnSpace.Keel.TSys
import LearnSpace.Keel.Underway

/-!
# The operations that are under way

The listening socket is to have an `accept` under way, and each open connection a `recv` or
a `send`. A completion ends the operation of its target and asks for others; those that find
no entry in the queue are dropped without a word. What is dropped is never asked for again,
since only a completion asks for anything.

The contexts are in order whatever happens: each operation has its own, which is live until
the completion has been handled, and not longer.
-/

namespace LearnSpace.IoURingServer

open Keel Function
open KvStore (Byte)

/-! ## Targets -/

/-- What an operation is on: a listening socket, or a connection. -/
inductive Target
  | listen (fd : Int)
  | client (fd : Int)
  deriving DecidableEq, Repr

/-- The target of an operation. -/
def Op.target : Op → Target
  | .accept fd => .listen fd
  | .recv fd _ _ => .client fd
  | .send fd _ _ => .client fd

def Sqe.target (e : Sqe) : Target := e.op.target

/-- What is to have an operation under way. -/
def Due (listenFd : Int) (isOpen : Int → Bool) : Target → Prop
  | .listen fd => fd = listenFd
  | .client fd => isOpen fd = true

/-- The targets of the operations that the handling of a completion asks for. -/
def Completion.wanted (listenFd : Int) (c : Completion) : List Target :=
  match c.sqe.op with
  | .accept _ => if c.res < 0 then [] else [.listen listenFd, .client c.res]
  | .recv fd _ _ | .send fd _ _ => if c.res ≤ 0 then [] else [.client fd]

/-- The connections that are open behind a completion. -/
def Completion.isOpen (c : Completion) (isOpen : Int → Bool) : Int → Bool :=
  match c.sqe.op with
  | .accept _ => if 0 ≤ c.res then update isOpen c.res true else isOpen
  | .recv fd _ _ | .send fd _ _ =>
      if c.res = 0 ∨ (c.res < 0 ∧ fd > 0) then update isOpen fd false else isOpen

/-- An error that leaves something due with no operation: of the listening socket, or of
the connection 0, which is not closed. -/
def Completion.Forgotten (c : Completion) : Prop :=
  c.res < 0 ∧ match c.sqe.op with
    | .accept _ => True
    | .recv fd _ _ | .send fd _ _ => ¬ fd > 0

/-- The received bytes fill the buffer, and none of them ends the text for `printf`. -/
def Completion.Unterminated (c : Completion) : Prop :=
  match c.sqe.op with
  | .recv _ _ _ => 0 < c.res ∧ bufferLen ≤ c.data.length ∧ 0 ∉ c.data
  | _ => False

/-! ## The claim -/

/-- One `accept` is under way on the listening socket, and one `recv` or `send` on each open
connection. The live contexts are those of the operations, each of which has its own. -/
structure Outstanding (listenFd : Int) (σ : Server) : Prop where
  accept : (σ.inflight.map Sqe.target).count (.listen listenFd) = 1
  clients : ∀ fd, σ.isOpen fd = true → (σ.inflight.map Sqe.target).count (.client fd) = 1
  contexts : ∀ p, σ.contexts.cell p ≠ none ↔ p ∈ σ.inflight.map Sqe.userData
  distinct : (σ.inflight.map Sqe.userData).Nodup

/-- A batch is handled, no context is used or deleted that is not live, and all is as it
should be behind it. -/
def KeepsOutstanding (listenFd : Int) (σ : Server) (batch : List Completion) : Prop :=
  ∃ σ', σ.turn listenFd batch = some σ' ∧ Outstanding listenFd σ'

/-- The number of operations that a batch asks for. -/
def requested (listenFd : Int) (batch : List Completion) : Nat :=
  (batch.flatMap fun c => c.wanted listenFd).length

/-- No `accept` fails, nor an operation on connection 0, the received texts end, and there
is an entry for each operation that is asked for. -/
structure SoundBatch (listenFd : Int) (batch : List Completion) : Prop where
  remembered : ∀ c ∈ batch, ¬ c.Forgotten
  terminated : ∀ c ∈ batch, ¬ c.Unterminated
  room : requested listenFd batch ≤ sqEntries

/-- The server, and the kernel, in batches. -/
def turns (listenFd : Int) : TSys Server (List Completion) where
  init σ := σ = .start listenFd
  step σ batch σ' := LegalBatch listenFd σ.beginTurn batch ∧ σ.turn listenFd batch = some σ'

/-- Runs of sound batches. -/
def soundTurns (listenFd : Int) : TSys Server (List Completion) where
  init σ := σ = .start listenFd
  step σ batch σ' := LegalBatch listenFd σ.beginTurn batch ∧ SoundBatch listenFd batch ∧
    σ.turn listenFd batch = some σ'

/-! ## Contexts -/

/-- A context is the one an operation was prepared with. -/
def Sqe.Of (listenFd : Int) (e : Sqe) (context : EventContext) : Prop :=
  match e.op with
  | .accept fd => fd = listenFd ∧ context.type = .ACCEPT ∧ context.fd = -1
  | .recv fd buffer len => buffer = e.userData ∧ len = bufferLen ∧ context.type = .RECV ∧
      context.fd = fd ∧ context.buffer = List.replicate bufferLen 0
  | .send fd buffer len => buffer = e.userData ∧ len ≤ bufferLen ∧ context.type = .SEND ∧
      context.fd = fd

/-- Each operation has a context of its own. The context of a completion that is being
handled is live, too, and no other one. -/
structure Owned (listenFd : Int) (h : Heap EventContext) (es : List Sqe)
    (handled : Option Ptr) : Prop where
  of : ∀ e ∈ es, ∃ context, h.cell e.userData = some context ∧ e.Of listenFd context
  distinct : (es.map Sqe.userData).Nodup
  live : ∀ p, h.cell p ≠ none ↔ p ∈ es.map Sqe.userData ∨ handled = some p
  apart : ∀ p, handled = some p → p ∉ es.map Sqe.userData

namespace Owned

variable {listenFd : Int} {h h' : Heap EventContext} {es es' rest : List Sqe} {e : Sqe}
  {handled : Option Ptr} {context : EventContext}

theorem perm (o : Owned listenFd h es handled) (hperm : es.Perm es') :
    Owned listenFd h es' handled := by
  have hmap := hperm.map Sqe.userData
  refine ⟨?_, hmap.nodup_iff.mp o.distinct, ?_, ?_⟩
  · intro e he
    exact o.of e (hperm.mem_iff.mpr he)
  · intro p
    rw [o.live p, hmap.mem_iff]
  · intro p hp
    rw [← hmap.mem_iff]
    exact o.apart p hp

/-- An operation has completed, and its context may have been written to. -/
theorem complete (o : Owned listenFd h (e :: rest) none)
    (hcell : h'.cell = update h.cell e.userData (some context)) :
    Owned listenFd h' rest (some e.userData) := by
  obtain ⟨hout, hdistinct⟩ := List.nodup_cons.mp o.distinct
  refine ⟨?_, hdistinct, ?_, ?_⟩
  · intro e' he'
    have hne : e'.userData ≠ e.userData := by
      intro heq
      apply hout
      rw [← heq]
      exact List.mem_map_of_mem he'
    rw [hcell, update_of_ne hne]
    exact o.of e' (List.mem_cons_of_mem e he')
  · intro p
    rw [hcell]
    by_cases hp : p = e.userData
    · rw [hp, update_self]
      exact iff_of_true (Option.some_ne_none context) (.inr rfl)
    · rw [update_of_ne hp, o.live p, List.map_cons, List.mem_cons]
      constructor
      · rintro ((heq | hmem) | hnone)
        · exact absurd heq hp
        · exact .inl hmem
        · cases hnone
      · rintro (hmem | hsome)
        · exact .inl (.inr hmem)
        · exact absurd (Option.some_inj.mp hsome).symm hp
  · intro p hp
    rw [← Option.some_inj.mp hp]
    exact hout

/-- An operation is prepared with a new context. -/
theorem alloc (o : Owned listenFd h es handled) (hdata : e.userData = (h.alloc context).1)
    (hof : e.Of listenFd context) : Owned listenFd (h.alloc context).2 (es ++ [e]) handled := by
  have hfresh : h.cell e.userData = none := by
    rw [hdata]
    exact h.alloc_fresh context
  have hcell : (h.alloc context).2.cell = update h.cell e.userData (some context) := by
    rw [hdata]
    exact h.alloc_cell context
  have hout : e.userData ∉ es.map Sqe.userData := by
    intro hmem
    exact (o.live e.userData).mpr (.inl hmem) hfresh
  have happend : (es ++ [e]).map Sqe.userData = es.map Sqe.userData ++ [e.userData] := by
    rw [List.map_append, List.map_singleton]
  refine ⟨?_, ?_, ?_, ?_⟩
  · intro e' he'
    rw [hcell]
    by_cases heq : e'.userData = e.userData
    · rcases List.mem_append.mp he' with hmem | hlast
      · exact absurd (heq ▸ List.mem_map_of_mem hmem) hout
      · rw [List.mem_singleton.mp hlast, update_self]
        exact ⟨context, rfl, hof⟩
    · rw [update_of_ne heq]
      rcases List.mem_append.mp he' with hmem | hlast
      · exact o.of e' hmem
      · exact absurd (congrArg Sqe.userData (List.mem_singleton.mp hlast)) heq
  · rw [happend]
    apply List.nodup_append'.mpr
    refine ⟨o.distinct, List.nodup_singleton _, ?_⟩
    exact List.disjoint_singleton.mpr hout
  · intro p
    rw [hcell, happend, List.mem_append, List.mem_singleton]
    by_cases hp : p = e.userData
    · rw [hp, update_self]
      exact iff_of_true (Option.some_ne_none context) (.inl (.inr rfl))
    · rw [update_of_ne hp, o.live p]
      simp only [hp, or_false]
  · intro p hp hmem
    rw [happend, List.mem_append, List.mem_singleton] at hmem
    rcases hmem with hmem | heq
    · exact o.apart p hp hmem
    · exact (o.live p).mpr (.inr hp) (heq ▸ hfresh)

/-- The context of the completion is deleted. -/
theorem delete {p : Ptr} (o : Owned listenFd h es (some p)) :
    ∃ h', h.free p = some h' ∧ Owned listenFd h' es none := by
  obtain ⟨context, hlive⟩ := Option.ne_none_iff_exists'.mp ((o.live p).mpr (.inr rfl))
  obtain ⟨h', hfree, hcell⟩ := Heap.free_eq hlive
  have hout := o.apart p rfl
  refine ⟨h', hfree, ?_, o.distinct, ?_, nofun⟩
  · intro e he
    have hne : e.userData ≠ p := by
      rintro rfl
      exact hout (List.mem_map_of_mem he)
    rw [hcell, update_of_ne hne]
    exact o.of e he
  · intro q
    rw [hcell]
    by_cases hq : q = p
    · rw [hq, update_self]
      constructor
      · intro hne
        exact absurd rfl hne
      · rintro (hmem | hnone)
        · exact absurd hmem hout
        · cases hnone
    · rw [update_of_ne hq, o.live q]
      have hne : some p ≠ some q := fun heq => hq (Option.some_inj.mp heq).symm
      simp only [hne, or_false, reduceCtorEq]

end Owned

/-! ## Asking for operations -/

/-- The operations that are under way, and those that will be with the next submission. -/
def Server.outstanding (σ : Server) : List Sqe := σ.inflight ++ σ.sq

/-- While a completion with the context `p` is being handled, operations on `ts` were asked
for. The first ones found an entry. -/
structure Asked (listenFd : Int) (p : Ptr) (σ τ : Server) (ts : List Target) : Prop where
  owned : Owned listenFd τ.contexts τ.outstanding (some p)
  targets : τ.outstanding.map Sqe.target =
    σ.outstanding.map Sqe.target ++ ts.take (sqEntries - σ.sq.length)
  queued : τ.sq.length = min sqEntries (σ.sq.length + ts.length)
  isOpen : τ.isOpen = σ.isOpen

/-- A completion on `e` has been handled, and operations on `ts` were asked for. -/
structure Handled (listenFd : Int) (σ τ : Server) (e : Sqe) (ts : List Target)
    (isOpen : Int → Bool) : Prop where
  owned : Owned listenFd τ.contexts τ.outstanding none
  targets : ∃ rest, (σ.outstanding.map Sqe.target).Perm (e.target :: rest) ∧
    τ.outstanding.map Sqe.target = rest ++ ts.take (sqEntries - σ.sq.length)
  queued : τ.sq.length = min sqEntries (σ.sq.length + ts.length)
  isOpen : τ.isOpen = isOpen
  flagged : τ.needSubmit = true ∨ (τ.needSubmit = σ.needSubmit ∧ τ.sq = σ.sq)

section Asking

variable {listenFd : Int} {σ τ τ' : Server} {p : Ptr} {ts ts' : List Target}
  {context : EventContext} {e : Sqe} {c : Completion}

theorem Asked.refl (o : Owned listenFd σ.contexts σ.outstanding (some p))
    (hsq : σ.sq.length ≤ sqEntries) : Asked listenFd p σ σ [] := by
  refine ⟨o, ?_, ?_, rfl⟩
  · rw [List.take_nil, List.append_nil]
  · rw [List.length_nil, Nat.add_zero, Nat.min_eq_right hsq]

theorem Asked.trans (a : Asked listenFd p σ τ ts) (b : Asked listenFd p τ τ' ts') :
    Asked listenFd p σ τ' (ts ++ ts') := by
  refine ⟨b.owned, ?_, ?_, b.isOpen.trans a.isOpen⟩
  · have hroom : sqEntries - τ.sq.length = sqEntries - σ.sq.length - ts.length := by
      rw [a.queued]
      omega
    rw [b.targets, a.targets, List.take_append, List.append_assoc, hroom]
  · rw [b.queued, a.queued, List.length_append]
    omega

/-- An operation is asked for. -/
theorem setEvent_asked (o : Owned listenFd σ.contexts σ.outstanding (some p))
    (hsq : σ.sq.length ≤ sqEntries) {prep : Ptr → Op}
    (hof : ∀ q, Sqe.Of listenFd ⟨prep q, q⟩ context) {t : Target} (ht : ∀ q, (prep q).target = t) :
    Asked listenFd p σ (σ.setEvent context prep) [t] := by
  rw [Server.setEvent]
  by_cases hroom : σ.sq.length < sqEntries
  · have hone : sqEntries - σ.sq.length = sqEntries - σ.sq.length - 1 + 1 := by omega
    rw [if_pos hroom]
    dsimp only
    refine ⟨?_, ?_, ?_, rfl⟩
    · rw [Server.outstanding, ← List.append_assoc]
      exact o.alloc rfl (hof _)
    · rw [Server.outstanding, ← List.append_assoc, List.map_append, List.map_singleton,
        Sqe.target, ht, hone, List.take_succ_cons, List.take_nil]
      rfl
    · rw [List.length_append, List.length_singleton, List.length_singleton]
      omega
  · have hnone : sqEntries - σ.sq.length = 0 := by omega
    rw [if_neg hroom]
    refine ⟨o, ?_, ?_, rfl⟩
    · rw [hnone, List.take_zero, List.append_nil]
    · rw [List.length_singleton]
      omega

theorem setAcceptEvent_asked (o : Owned listenFd σ.contexts σ.outstanding (some p))
    (hsq : σ.sq.length ≤ sqEntries) :
    Asked listenFd p σ (σ.setAcceptEvent listenFd) [.listen listenFd] := by
  apply setEvent_asked o hsq
  · intro q
    exact ⟨rfl, rfl, rfl⟩
  · intro q
    rfl

theorem setReadEvent_asked (o : Owned listenFd σ.contexts σ.outstanding (some p))
    (hsq : σ.sq.length ≤ sqEntries) (fd : Int) :
    Asked listenFd p σ (σ.setReadEvent fd) [.client fd] := by
  apply setEvent_asked o hsq
  · intro q
    exact ⟨rfl, rfl, rfl, rfl, rfl⟩
  · intro q
    rfl

/-- The copy into the new context is within the bounds of both buffers. -/
theorem setSendEvent_asked (o : Owned listenFd σ.contexts σ.outstanding (some p))
    (hsq : σ.sq.length ≤ sqEntries) (fd : Int) {msg : List Byte} {msgLen : Nat}
    (hmsg : msgLen ≤ msg.length) (hlen : msgLen ≤ bufferLen) :
    ∃ τ, σ.setSendEvent fd msg msgLen = some τ ∧ Asked listenFd p σ τ [.client fd] := by
  rw [Server.setSendEvent]
  by_cases hroom : σ.sq.length < sqEntries
  · have hslice := Buffer.slice_eq (show 0 + msgLen ≤ msg.length by omega)
    have hbytes := Buffer.length_slice hslice
    have hfits : 0 + ((msg.drop 0).take msgLen).length ≤
        (List.replicate bufferLen (0 : Byte)).length := by
      rw [hbytes, List.length_replicate, Nat.zero_add]
      exact hlen
    have hblit := Buffer.blit_eq hfits
    rw [if_pos hroom]
    simp only [hslice, hblit, Option.bind_eq_bind, Option.bind_some, Option.pure_def]
    refine ⟨_, rfl, ?_⟩
    apply setEvent_asked o hsq
    · intro q
      exact ⟨rfl, hlen, rfl, rfl⟩
    · intro q
      rfl
  · -- without an entry nothing is copied
    have hfull := setReadEvent_asked o hsq fd
    rw [Server.setReadEvent, Server.setEvent, if_neg hroom] at hfull
    exact ⟨σ, if_neg hroom, hfull⟩

/-! ## The branches of the switch -/

theorem dispatch_accept (o : Owned listenFd σ.contexts σ.outstanding (some p))
    (hsq : σ.sq.length ≤ sqEntries) (htype : context.type = .ACCEPT) (res : Int) :
    ∃ τ, σ.dispatch listenFd context res = some τ ∧
      Asked listenFd p σ τ [.listen listenFd, .client res] ∧ τ.needSubmit = true := by
  have hfirst := setAcceptEvent_asked o hsq
  have hsq' : (σ.setAcceptEvent listenFd).sq.length ≤ sqEntries := by
    rw [hfirst.queued]
    exact Nat.min_le_left _ _
  have hboth := hfirst.trans (setReadEvent_asked hfirst.owned hsq' res)
  refine ⟨{ (σ.setAcceptEvent listenFd).setReadEvent res with needSubmit := true }, ?_,
    ⟨hboth.owned, hboth.targets, hboth.queued, hboth.isOpen⟩, rfl⟩
  rw [Server.dispatch, htype]

theorem dispatch_recv (o : Owned listenFd σ.contexts σ.outstanding (some p))
    (hsq : σ.sq.length ≤ sqEntries) (htype : context.type = .RECV) {res : Int} (hres : res ≠ 0)
    (hzero : 0 ∈ context.buffer) (hmsg : res.toNat ≤ context.buffer.length)
    (hlen : res.toNat ≤ bufferLen) :
    ∃ τ, σ.dispatch listenFd context res = some τ ∧
      Asked listenFd p σ τ [.client context.fd] ∧ τ.needSubmit = true := by
  obtain ⟨τ, hset, a⟩ := setSendEvent_asked o hsq context.fd hmsg hlen
  refine ⟨{ τ with needSubmit := true }, ?_, ⟨a.owned, a.targets, a.queued, a.isOpen⟩, rfl⟩
  rw [Server.dispatch, htype]
  simp only [if_neg hres, if_pos hzero, hset, Option.bind_eq_bind, Option.bind_some,
    Option.pure_def]

theorem dispatch_send (o : Owned listenFd σ.contexts σ.outstanding (some p))
    (hsq : σ.sq.length ≤ sqEntries) (htype : context.type = .SEND) {res : Int} (hres : res ≠ 0) :
    ∃ τ, σ.dispatch listenFd context res = some τ ∧
      Asked listenFd p σ τ [.client context.fd] ∧ τ.needSubmit = true := by
  have a := setReadEvent_asked o hsq context.fd
  refine ⟨{ σ.setReadEvent context.fd with needSubmit := true }, ?_,
    ⟨a.owned, a.targets, a.queued, a.isOpen⟩, rfl⟩
  rw [Server.dispatch, htype]
  exact if_neg hres

theorem dispatch_zero (htype : context.type = .RECV ∨ context.type = .SEND) :
    σ.dispatch listenFd context 0 = some (σ.close context.fd) := by
  rw [Server.dispatch]
  rcases htype with htype | htype
  · rw [htype]
    exact if_pos rfl
  · rw [htype]
    exact if_pos rfl

end Asking

end LearnSpace.IoURingServer
