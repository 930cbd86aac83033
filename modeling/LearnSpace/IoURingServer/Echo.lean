import LearnSpace.IoURingServer.OutstandingRuns

/-!
# The echoed streams

What the kernel has received on a connection, and what it has accepted for sending there, as
streams that start with the `accept` of the connection. Between two completions a connection waits
for bytes, and then everything received has been accepted, or it sends, and then what is missing is
in the buffer of its `send` (`Caught`). A `send` that completes with less than it was given breaks
this: the branch for it asks for the next `recv` and the rest is gone.
-/

namespace LearnSpace.IoURingServer

open Keel Function
open KvStore (Byte)

/-! ## Moments -/

/-- The bytes received and the bytes accepted for sending, on the connection of a descriptor. -/
structure Streams where
  received : Int → List Byte
  accepted : Int → List Byte

/-- The buffer of a context. -/
def Server.bytesAt (σ : Server) (buffer : Ptr) : List Byte :=
  ((σ.contexts.cell buffer).map EventContext.buffer).getD []

/-- A completion moves the streams: `accept` starts new ones, `recv` has received its data, and
`send` has accepted as much of its buffer as its result says. -/
def Streams.next (st : Streams) (σ : Server) (c : Completion) : Streams :=
  match c.sqe.op with
  | .accept _ =>
      if 0 ≤ c.res then
        { received := update st.received c.res []
          accepted := update st.accepted c.res [] }
      else st
  | .recv fd _ _ => { st with received := update st.received fd (st.received fd ++ c.data) }
  | .send fd buffer _ =>
      { st with
        accepted := update st.accepted fd
          (st.accepted fd ++ (σ.bytesAt buffer).take c.res.toNat) }

/-- The end of a turn and the beginning of the next one. -/
def Server.nextTurn (σ : Server) : Server := (if σ.needSubmit then σ.submit else σ).beginTurn

/-- What happens from one moment to the next. -/
inductive Moment
  | cqe (c : Completion)
  | turn

/-- A `send` has taken some of its bytes, but not all of them. -/
def Completion.Short (c : Completion) : Prop :=
  match c.sqe.op with
  | .send _ _ len => 0 < c.res ∧ c.res < len
  | _ => False

/-- The server and the streams, from one completion to the next. -/
def moments (listenFd : Int) : TSys (Server × Streams) Moment where
  init s := s = (.start listenFd, ⟨fun _ => [], fun _ => []⟩)
  step s m s' :=
    match m with
    | .cqe c => c.Legal s.1 ∧ s.1.completed listenFd c = some s'.1 ∧ s'.2 = s.2.next s.1 c
    | .turn => s'.1 = s.1.nextTurn ∧ s'.2 = s.2

/-- Runs in which a `send` takes all its bytes, or none. -/
def fullMoments (listenFd : Int) : TSys (Server × Streams) Moment where
  init := (moments listenFd).init
  step s m s' := (moments listenFd).step s m s' ∧ ∀ c, m = .cqe c → ¬ c.Short

/-! ## What a connection waits for -/

/-- Where the streams of a connection stand while an operation on it is under way. -/
def Caught (h : Heap EventContext) (st : Streams) (e : Sqe) : Prop :=
  match e.op with
  | .accept _ => True
  | .recv fd _ _ => st.accepted fd = st.received fd
  | .send fd buffer len => ∃ context, h.cell buffer = some context ∧
      st.received fd = st.accepted fd ++ context.buffer.take len

/-- All operations have the streams where they should be, and nothing is accepted that was not
received, in its order. -/
structure Echoed (listenFd : Int) (s : Server × Streams) : Prop where
  orderly : Orderly listenFd s.1
  caught : ∀ e ∈ s.1.outstanding, Caught s.1.contexts s.2 e
  isPrefix : ∀ fd, s.2.accepted fd <+: s.2.received fd

variable {listenFd : Int} {σ τ : Server} {st st' : Streams} {h h' : Heap EventContext} {e : Sqe}
  {c : Completion} {p : Ptr} {context : EventContext}

theorem bytesAt_of_cell (hcell : σ.contexts.cell p = some context) :
    σ.bytesAt p = context.buffer := by
  unfold Server.bytesAt
  rw [hcell]
  rfl

/-- Only the cell of its buffer and the streams of its connection count for an operation. -/
theorem Caught.frame (hc : Caught h st e)
    (hcell : ∀ fd buffer len context, e.op = .send fd buffer len →
      h.cell buffer = some context → h'.cell buffer = some context)
    (hst : ∀ fd, e.target = .client fd →
      st'.received fd = st.received fd ∧ st'.accepted fd = st.accepted fd) :
    Caught h' st' e := by
  unfold Sqe.target at hst
  unfold Caught at hc ⊢
  cases hop : e.op with
  | accept fd => trivial
  | recv fd buffer len =>
      rw [hop] at hc hst
      obtain ⟨hreceived, haccepted⟩ := hst fd rfl
      show st'.accepted fd = st'.received fd
      rw [hreceived, haccepted]
      exact hc
  | send fd buffer len =>
      rw [hop] at hc hst
      obtain ⟨hreceived, haccepted⟩ := hst fd rfl
      obtain ⟨context, hlive, heq⟩ := hc
      refine ⟨context, hcell fd buffer len context hop hlive, ?_⟩
      rw [hreceived, haccepted]
      exact heq

/-! ## The steps of a completion -/

/-- A new operation is asked for, if there is room, and the others stay as they are. -/
theorem setEvent_caught (hσ : ∀ e ∈ σ.outstanding, Caught σ.contexts st e)
    {prep : Ptr → Op} (hnew : ∀ (h : Heap EventContext) q, h.cell q = some context →
      Caught h st ⟨prep q, q⟩) :
    ∀ e ∈ (σ.setEvent context prep).outstanding,
      Caught (σ.setEvent context prep).contexts st e := by
  unfold Server.setEvent
  split
  · intro e he
    have hcell := σ.contexts.alloc_cell context
    have hfresh := σ.contexts.alloc_fresh context
    rw [Server.outstanding, ← List.append_assoc] at he
    cases List.mem_append.mp he with
    | inl hold =>
        apply (hσ e hold).frame
        · intro fd buffer len context' _ hlive
          have hne : buffer ≠ (σ.contexts.alloc context).1 := by
            intro heq
            rw [heq, hfresh] at hlive
            cases hlive
          rw [hcell, update_of_ne hne]
          exact hlive
        · intro fd _
          exact ⟨rfl, rfl⟩
    | inr hlast =>
        rw [List.mem_singleton.mp hlast]
        apply hnew
        rw [hcell, update_self]
  · exact hσ

/-- The context of the completion is deleted, which belongs to none of the operations. -/
theorem deleteContext_caught (hσ : ∀ e ∈ σ.outstanding, Caught σ.contexts st e)
    (hdelete : σ.deleteContext p = some τ)
    (howned : Owned listenFd τ.contexts τ.outstanding none) :
    ∀ e ∈ τ.outstanding, Caught τ.contexts st e := by
  obtain ⟨contexts, hfree, hτ⟩ := Option.bind_eq_some_iff.mp hdelete
  cases hτ
  obtain ⟨-, -, hcell, -⟩ := Heap.free_some hfree
  intro e he
  apply (hσ e he).frame
  · intro fd buffer len context hop hlive
    obtain ⟨context', hlive', hof⟩ := howned.of e he
    rw [Sqe.Of, hop] at hof
    have hne : buffer ≠ p := by
      intro heq
      rw [← hof.1, heq, hcell, update_self] at hlive'
      cases hlive'
    rw [hcell, update_of_ne hne]
    exact hlive
  · intro fd _
    exact ⟨rfl, rfl⟩

/-- Where the streams have to stand for what a completion asks for. -/
def Ready (st : Streams) (context : EventContext) (res : Int) : Prop :=
  match context.type with
  | .ACCEPT => st.accepted res = st.received res
  | .RECV => 0 < res →
      st.received context.fd = st.accepted context.fd ++ context.buffer.take res.toNat
  | .SEND => 0 < res → st.accepted context.fd = st.received context.fd
  | .UNDEF => True

theorem setReadEvent_caught (hσ : ∀ e ∈ σ.outstanding, Caught σ.contexts st e) {fd : Int}
    (hready : st.accepted fd = st.received fd) :
    ∀ e ∈ (σ.setReadEvent fd).outstanding, Caught (σ.setReadEvent fd).contexts st e := by
  apply setEvent_caught hσ
  intro h q _
  exact hready

/-- What was received is copied into the buffer of the `send`. -/
theorem setSendEvent_caught (hσ : ∀ e ∈ σ.outstanding, Caught σ.contexts st e) {fd : Int}
    {bytes : List Byte} {len : Nat} (hset : σ.setSendEvent fd bytes len = some τ)
    (hready : st.received fd = st.accepted fd ++ bytes.take len) :
    ∀ e ∈ τ.outstanding, Caught τ.contexts st e := by
  unfold Server.setSendEvent at hset
  split at hset
  · obtain ⟨part, hpart, hset⟩ := Option.bind_eq_some_iff.mp hset
    obtain ⟨buffer, hbuffer, hset⟩ := Option.bind_eq_some_iff.mp hset
    cases hset
    have htake : part = bytes.take len := by
      unfold Buffer.slice at hpart
      split at hpart
      · cases hpart
        rw [List.drop_zero]
      · cases hpart
    have hlen := Buffer.length_slice hpart
    have hfront : buffer.take len = part := by
      unfold Buffer.blit at hbuffer
      split at hbuffer
      · cases hbuffer
        rw [List.take_zero, List.nil_append, ← hlen]
        exact List.take_left' rfl
      · cases hbuffer
    apply setEvent_caught hσ
    intro h q hlive
    refine ⟨_, hlive, ?_⟩
    rw [hready, hfront, htake]
  · cases hset
    exact hσ

/-- The branches of the switch. -/
theorem dispatch_caught (hσ : ∀ e ∈ σ.outstanding, Caught σ.contexts st e) {res : Int}
    (hres : 0 ≤ res) (hready : Ready st context res)
    (hdispatch : σ.dispatch listenFd context res = some τ) :
    ∀ e ∈ τ.outstanding, Caught τ.contexts st e := by
  unfold Server.dispatch at hdispatch
  unfold Ready at hready
  cases htype : context.type with
  | UNDEF =>
      rw [htype] at hdispatch
      cases hdispatch
      exact hσ
  | ACCEPT =>
      rw [htype] at hdispatch hready
      cases hdispatch
      have haccept : ∀ e ∈ (σ.setAcceptEvent listenFd).outstanding,
          Caught (σ.setAcceptEvent listenFd).contexts st e := by
        apply setEvent_caught hσ
        intro h q _
        trivial
      exact setReadEvent_caught haccept hready
  | RECV =>
      rw [htype] at hdispatch hready
      dsimp only at hdispatch
      split at hdispatch
      · cases hdispatch
        exact hσ
      · split at hdispatch
        · obtain ⟨υ, hset, hτ⟩ := Option.bind_eq_some_iff.mp hdispatch
          cases hτ
          have hυ := setSendEvent_caught hσ hset (hready (by omega))
          exact hυ
        · cases hdispatch
  | SEND =>
      rw [htype] at hdispatch hready
      dsimp only at hdispatch
      split at hdispatch
      · cases hdispatch
        exact hσ
      · cases hdispatch
        exact setReadEvent_caught hσ (hready (by omega))

/-- The handling of a completion whose context is `context`. -/
theorem handle_caught (context : EventContext) {res : Int}
    (hhandle : σ.handle listenFd p res = some τ)
    (howned : Owned listenFd τ.contexts τ.outstanding none)
    (hcell : σ.contexts.cell p = some context)
    (hσ : ∀ e ∈ σ.outstanding, Caught σ.contexts st e)
    (hready : 0 ≤ res → Ready st context res) : ∀ e ∈ τ.outstanding, Caught τ.contexts st e := by
  by_cases hres : res < 0
  · rw [handle_error hcell hres] at hhandle
    refine deleteContext_caught ?_ hhandle howned
    split <;> exact hσ
  · have hnonneg := Int.not_lt.mp hres
    simp only [Server.handle, Heap.load, hcell, if_neg hres, Option.bind_eq_bind,
      Option.bind_some] at hhandle
    obtain ⟨υ, hdispatch, hdelete⟩ := Option.bind_eq_some_iff.mp hhandle
    exact deleteContext_caught (dispatch_caught hσ hnonneg (hready hnonneg) hdispatch) hdelete
      howned

/-! ## A completion -/

/-- The other operations are on other connections and have other contexts. -/
theorem Orderly.apart (i : Orderly listenFd σ) (hmem : c.sqe ∈ σ.inflight) :
    ∀ e ∈ σ.inflight.erase c.sqe ++ σ.sq,
      e ∈ σ.outstanding ∧ e.userData ≠ c.sqe.userData ∧ e.target ≠ c.sqe.target := by
  have hperm := perm_erase hmem
  have hdata := (i.owned.perm hperm).distinct
  have htarget := (i.tidy.perm (hperm.map Sqe.target)).nodup
  rw [List.map_cons] at hdata htarget
  intro e he
  refine ⟨hperm.mem_iff.mpr (List.mem_cons_of_mem _ he), ?_, ?_⟩
  · intro heq
    exact (List.nodup_cons.mp hdata).1 (heq ▸ List.mem_map_of_mem he)
  · intro heq
    exact (List.nodup_cons.mp htarget).1 (heq ▸ List.mem_map_of_mem he)

theorem Orderly.apart_client (i : Orderly listenFd σ) (hmem : c.sqe ∈ σ.inflight) {fd fd' : Int}
    (htarget : c.sqe.target = .client fd) (he : e ∈ σ.inflight.erase c.sqe ++ σ.sq)
    (hfd : e.target = .client fd') : fd' ≠ fd := by
  intro heq
  apply (i.apart hmem e he).2.2
  rw [hfd, htarget, heq]

/-- The other operations do not notice a completion, if only the cell of its context and the
streams of its connection have changed. -/
theorem Echoed.rest (i : Echoed listenFd (σ, st)) (hmem : c.sqe ∈ σ.inflight)
    (hcell : ∀ q, q ≠ c.sqe.userData → h'.cell q = σ.contexts.cell q)
    (hst : ∀ fd, (∀ e ∈ σ.inflight.erase c.sqe ++ σ.sq, e.target = .client fd →
      st'.received fd = st.received fd ∧ st'.accepted fd = st.accepted fd)) :
    ∀ e ∈ σ.inflight.erase c.sqe ++ σ.sq, Caught h' st' e := by
  intro e he
  obtain ⟨hout, hdata, -⟩ := i.orderly.apart hmem e he
  apply (i.caught e hout).frame
  · intro fd buffer len context hop hlive
    obtain ⟨context', -, hof⟩ := i.orderly.owned.of e hout
    rw [Sqe.Of, hop] at hof
    rw [hcell buffer (hof.1 ▸ hdata)]
    exact hlive
  · intro fd hfd
    exact hst fd e he hfd

theorem completed_accept_caught (i : Echoed listenFd (σ, st)) (hl : c.Legal σ) {fd : Int}
    (hop : c.sqe.op = .accept fd) (hrun : σ.completed listenFd c = some τ)
    (howned : Owned listenFd τ.contexts τ.outstanding none) :
    ∀ e ∈ τ.outstanding, Caught τ.contexts (st.next σ c) e := by
  obtain ⟨context, hcell, hof⟩ := i.orderly.owned.of c.sqe (List.mem_append_left _ hl.1)
  have hlegal := hl.2
  have htype : context.type = .ACCEPT := by
    rw [Sqe.Of, hop] at hof
    exact hof.2.1
  rw [hop] at hlegal
  simp only [Server.completed, Server.complete, hop, Option.bind_eq_bind, Option.bind_some] at hrun
  have hnext : st.next σ c = if 0 ≤ c.res then
      { received := update st.received c.res [], accepted := update st.accepted c.res [] }
      else st := by
    rw [Streams.next, hop]
  rw [hnext]
  by_cases hres : 0 ≤ c.res
  · rw [if_pos hres] at hrun ⊢
    refine handle_caught context hrun howned hcell ?_ ?_
    · apply i.rest hl.1
      · intro q _
        rfl
      · intro fd' e he hfd
        -- no operation is on the new connection
        have hout := (i.orderly.apart hl.1 e he).1
        have hdue := i.orderly.tidy.due e.target (List.mem_map_of_mem hout)
        rw [hfd, Due] at hdue
        have hne : fd' ≠ c.res := by
          intro heq
          rw [heq, hlegal hres] at hdue
          cases hdue
        exact ⟨update_of_ne hne _ _, update_of_ne hne _ _⟩
    · intro _
      rw [Ready, htype]
      simp
  · rw [if_neg hres] at hrun ⊢
    refine handle_caught context hrun howned hcell ?_ ?_
    · apply i.rest hl.1
      · intro q _
        rfl
      · intro fd' e _ _
        exact ⟨rfl, rfl⟩
    · intro hnonneg
      exact absurd hnonneg hres

theorem completed_recv_caught (i : Echoed listenFd (σ, st)) (hl : c.Legal σ) {fd : Int}
    {buffer : Ptr} {len : Nat} (hop : c.sqe.op = .recv fd buffer len)
    (hrun : σ.completed listenFd c = some τ)
    (howned : Owned listenFd τ.contexts τ.outstanding none) :
    ∀ e ∈ τ.outstanding, Caught τ.contexts (st.next σ c) e := by
  have hout : c.sqe ∈ σ.outstanding := List.mem_append_left _ hl.1
  obtain ⟨context, hcell, hof⟩ := i.orderly.owned.of c.sqe hout
  have hlegal := hl.2
  have hcaught := i.caught c.sqe hout
  have htarget : c.sqe.target = .client fd := by
    rw [Sqe.target, hop]
    rfl
  rw [Sqe.Of, hop] at hof
  rw [hop] at hlegal
  rw [Caught, hop] at hcaught
  obtain ⟨hbuffer, -, htype, hfd, -⟩ := hof
  simp only [Server.completed, Server.complete, hop, Option.bind_eq_bind] at hrun
  obtain ⟨υ, hυ, hrun⟩ := Option.bind_eq_some_iff.mp hrun
  obtain ⟨contexts, hmodify, hdone⟩ := Option.bind_eq_some_iff.mp hυ
  cases hdone
  obtain ⟨context', hcell', hcells, -⟩ := Heap.modify_some hmodify
  rw [hbuffer, hcell] at hcell'
  cases hcell'
  have hnext : st.next σ c =
      { st with received := update st.received fd (st.received fd ++ c.data) } := by
    rw [Streams.next, hop]
  rw [hnext]
  refine handle_caught { context with buffer := c.data ++ context.buffer.drop c.data.length }
    hrun howned ?_ ?_ ?_
  · rw [← hbuffer]
    show contexts.cell buffer = _
    rw [hcells, update_self]
  · apply i.rest hl.1
    · intro q hq
      rw [hcells, hbuffer, update_of_ne hq]
    · intro fd' e he hfd'
      have hne : fd' ≠ fd := i.orderly.apart_client hl.1 htarget he hfd'
      exact ⟨update_of_ne hne _ _, rfl⟩
  · intro hres
    rw [Ready]
    dsimp only
    rw [htype]
    intro hpos
    -- the data are at the front of the buffer
    rw [hfd, update_self, ← hlegal.2, List.take_left' rfl]
    have heq : st.accepted fd = st.received fd := hcaught
    rw [heq]

theorem completed_send_caught (i : Echoed listenFd (σ, st)) (hl : c.Legal σ) {fd : Int}
    {buffer : Ptr} {len : Nat} (hop : c.sqe.op = .send fd buffer len) (hshort : ¬ c.Short)
    (hrun : σ.completed listenFd c = some τ)
    (howned : Owned listenFd τ.contexts τ.outstanding none) :
    ∀ e ∈ τ.outstanding, Caught τ.contexts (st.next σ c) e := by
  have hout : c.sqe ∈ σ.outstanding := List.mem_append_left _ hl.1
  obtain ⟨context, hcell, hof⟩ := i.orderly.owned.of c.sqe hout
  have hlegal := hl.2
  have hcaught := i.caught c.sqe hout
  have htarget : c.sqe.target = .client fd := by
    rw [Sqe.target, hop]
    rfl
  rw [Sqe.Of, hop] at hof
  rw [hop] at hlegal
  rw [Caught, hop] at hcaught
  rw [Completion.Short, hop] at hshort
  obtain ⟨hbuffer, -, htype, hfd⟩ := hof
  obtain ⟨context', hcell', hmissing⟩ := hcaught
  rw [hbuffer, hcell] at hcell'
  cases hcell'
  simp only [Server.completed, Server.complete, hop, Option.bind_eq_bind, Option.bind_some] at hrun
  have hbytes : σ.bytesAt buffer = context.buffer := bytesAt_of_cell (hbuffer ▸ hcell)
  have hnext : st.next σ c = { st with
      accepted := update st.accepted fd (st.accepted fd ++ context.buffer.take c.res.toNat) } := by
    rw [Streams.next, hop]
    dsimp only
    rw [hbytes]
  rw [hnext]
  refine handle_caught context hrun howned hcell ?_ ?_
  · apply i.rest hl.1
    · intro q _
      rfl
    · intro fd' e he hfd'
      have hne : fd' ≠ fd := i.orderly.apart_client hl.1 htarget he hfd'
      exact ⟨rfl, update_of_ne hne _ _⟩
  · intro _
    rw [Ready, htype]
    intro hpos
    -- all of the buffer has been taken
    have hall : c.res.toNat = len := by omega
    dsimp only
    rw [hfd, update_self, hall]
    exact hmissing.symm

/-- A completion that is no short `send` keeps everything echoed. -/
theorem completed_echoed (i : Echoed listenFd (σ, st)) (hl : c.Legal σ) (hshort : ¬ c.Short)
    (hrun : σ.completed listenFd c = some τ) : Echoed listenFd (τ, st.next σ c) := by
  have hspec := completed_eq i.orderly.owned i.orderly.queued hl
  have horderly : Orderly listenFd τ := by
    by_cases hends : c.Unterminated
    · rw [hspec.1 hends] at hrun
      cases hrun
    · obtain ⟨τ', hrun', r⟩ := hspec.2 hends
      rw [hrun] at hrun'
      cases hrun'
      exact r.orderly i.orderly hl
  have hout : c.sqe ∈ σ.outstanding := List.mem_append_left _ hl.1
  have hcaught := i.caught c.sqe hout
  have hlegal := hl.2
  cases hop : c.sqe.op with
  | accept fd =>
      refine ⟨horderly, completed_accept_caught i hl hop hrun horderly.owned, ?_⟩
      intro fd'
      simp only [Streams.next, hop]
      split
      · by_cases hfd : fd' = c.res
        · simp [hfd]
        · simp only [update_of_ne hfd]
          exact i.isPrefix fd'
      · exact i.isPrefix fd'
  | recv fd buffer len =>
      refine ⟨horderly, completed_recv_caught i hl hop hrun horderly.owned, ?_⟩
      intro fd'
      simp only [Streams.next, hop]
      by_cases hfd : fd' = fd
      · rw [hfd, update_self]
        exact (i.isPrefix fd).trans (List.prefix_append _ _)
      · rw [update_of_ne hfd]
        exact i.isPrefix fd'
  | send fd buffer len =>
      refine ⟨horderly, completed_send_caught i hl hop hshort hrun horderly.owned, ?_⟩
      rw [Caught, hop] at hcaught
      rw [hop] at hlegal
      obtain ⟨context, hcell, hmissing⟩ := hcaught
      intro fd'
      simp only [Streams.next, hop]
      by_cases hfd : fd' = fd
      · have hbytes : σ.bytesAt buffer = context.buffer := bytesAt_of_cell hcell
        have hle : c.res.toNat ≤ len := by omega
        rw [hfd, update_self, hbytes]
        dsimp only at hmissing
        rw [hmissing]
        exact (List.prefix_append_right_inj _).mpr (List.take_prefix_take_left hle)
      · rw [update_of_ne hfd]
        exact i.isPrefix fd'

/-! ## Runs -/

theorem nextTurn_echoed (i : Echoed listenFd (σ, st)) : Echoed listenFd (σ.nextTurn, st) := by
  have hsettled := i.orderly.settled.1
  have hsame : σ.nextTurn.outstanding = σ.outstanding ∧ σ.nextTurn.contexts = σ.contexts := by
    unfold Server.nextTurn
    split
    · exact ⟨List.append_nil _, rfl⟩
    · exact ⟨rfl, rfl⟩
  refine ⟨hsettled.begin, ?_, i.isPrefix⟩
  dsimp only
  rw [hsame.1, hsame.2]
  exact i.caught

theorem fullMoments_echoed (listenFd : Int) :
    (fullMoments listenFd).Inductive (Echoed listenFd) where
  init := by
    intro s hs
    cases hs
    refine ⟨(start_settled listenFd).1.orderly, ?_, ?_⟩
    · intro e he
      rw [List.mem_singleton.mp he]
      trivial
    · intro fd
      exact List.prefix_refl _
  step := by
    intro s m s' i hstep
    obtain ⟨σ, st⟩ := s
    obtain ⟨τ, st'⟩ := s'
    cases m with
    | cqe c =>
        obtain ⟨⟨hl, hrun, hst⟩, hshort⟩ := hstep
        dsimp only at hst
        rw [hst]
        exact completed_echoed i hl (hshort c rfl) hrun
    | turn =>
        obtain ⟨⟨hτ, hst⟩, -⟩ := hstep
        dsimp only at hτ hst
        rw [hτ, hst]
        exact nextTurn_echoed i

/-- **The echoed stream.** In every run in which no `send` stops short, the bytes accepted for
sending on a connection are at every moment a prefix of the bytes received on it. -/
theorem fullMoments_prefix {s : Server × Streams} (hs : (fullMoments listenFd).Reachable s)
    (fd : Int) : s.2.accepted fd <+: s.2.received fd :=
  ((fullMoments_echoed listenFd).invariant s hs).isPrefix fd

/-! ## Runs that are computed -/

instance (c : Completion) (σ : Server) : Decidable (c.Legal σ) := by
  unfold Completion.Legal
  cases c.sqe.op <;> infer_instance

instance (c : Completion) : Decidable c.Short := by
  unfold Completion.Short
  cases c.sqe.op <;> infer_instance

/-- What happens next, if the kernel can answer so. -/
def Moment.next (listenFd : Int) (s : Server × Streams) : Moment → Option (Server × Streams)
  | .cqe c =>
      if c.Legal s.1 then (s.1.completed listenFd c).map fun σ => (σ, s.2.next s.1 c) else none
  | .turn => some (s.1.nextTurn, s.2)

theorem Moment.next_step {s s' : Server × Streams} {m : Moment}
    (h : m.next listenFd s = some s') : (moments listenFd).step s m s' := by
  cases m with
  | cqe c =>
      rw [Moment.next] at h
      by_cases hl : c.Legal s.1
      · rw [if_pos hl] at h
        obtain ⟨σ, hσ, heq⟩ := Option.map_eq_some_iff.mp h
        cases heq
        exact ⟨hl, hσ, rfl⟩
      · rw [if_neg hl] at h
        cases h
  | turn =>
      cases h
      exact ⟨rfl, rfl⟩

/-- The same, but no `send` stops short. -/
def Moment.nextFull (listenFd : Int) (s : Server × Streams) : Moment → Option (Server × Streams)
  | .cqe c => if c.Short then none else (Moment.cqe c).next listenFd s
  | .turn => Moment.turn.next listenFd s

theorem Moment.nextFull_step {s s' : Server × Streams} {m : Moment}
    (h : m.nextFull listenFd s = some s') : (fullMoments listenFd).step s m s' := by
  cases m with
  | cqe c =>
      rw [Moment.nextFull] at h
      by_cases hshort : c.Short
      · rw [if_pos hshort] at h
        cases h
      · rw [if_neg hshort] at h
        refine ⟨Moment.next_step h, ?_⟩
        intro c' heq
        cases heq
        exact hshort
  | turn => exact ⟨Moment.next_step h, nofun⟩

/-- Nothing has been received yet. -/
def quiet : Server × Streams := (.start 3, ⟨fun _ => [], fun _ => []⟩)

/-- The listening socket is 3, and 4 is accepted and sends `ab`. -/
def receivedTwo : List Moment :=
  [.cqe { sqe := ⟨.accept 3, 1⟩, res := 4 }, .turn,
    .cqe { sqe := ⟨.recv 4 3 2048, 3⟩, res := 2, data := [97, 98] }, .turn]

/-- And both bytes are taken. -/
def sentTwo : List Moment :=
  receivedTwo ++ [.cqe { sqe := ⟨.send 4 4 2, 4⟩, res := 2 }]

def echoedTwo : Server × Streams :=
  (sentTwo.foldlM (Moment.nextFull 3) quiet).get (by decide +kernel)

theorem echoedTwo_reachable : (fullMoments 3).Reachable echoedTwo :=
  (TSys.Reachable.init rfl).foldlM (fun _ _ _ => Moment.nextFull_step) (Option.some_get _).symm

theorem fullMoments_prefix_two : echoedTwo.2.accepted 4 <+: echoedTwo.2.received 4 :=
  fullMoments_prefix echoedTwo_reachable 4

/-- Only `a` is taken, and then `c` is received and echoed. -/
def lostOne : List Moment :=
  receivedTwo ++ [.cqe { sqe := ⟨.send 4 4 2, 4⟩, res := 1 }, .turn,
    .cqe { sqe := ⟨.recv 4 5 2048, 5⟩, res := 1, data := [99] }, .turn,
    .cqe { sqe := ⟨.send 4 6 1, 6⟩, res := 1 }]

/-- `abc` was received, and `ac` has been accepted. -/
theorem prefix_breaks :
    ∃ s, (moments 3).Reachable s ∧ ¬ s.2.accepted 4 <+: s.2.received 4 := by
  have hlost : (lostOne.foldlM (Moment.next 3) quiet).map
      (fun s => (s.2.accepted 4, s.2.received 4)) = some ([97, 99], [97, 98, 99]) := by
    decide +kernel
  obtain ⟨s, hrun, hstreams⟩ := Option.map_eq_some_iff.mp hlost
  obtain ⟨haccepted, hreceived⟩ := Prod.mk.inj hstreams
  refine ⟨s, (TSys.Reachable.init rfl).foldlM (fun _ _ _ => Moment.next_step) hrun, ?_⟩
  rw [haccepted, hreceived]
  decide

end LearnSpace.IoURingServer
