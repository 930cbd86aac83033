import Mathlib.Data.List.Perm.Subperm
import LearnSpace.QpsTool.Tool

/-!
# The contexts of the pool

An operation is outstanding from when it is prepared until the loop has handled its completion.
Each outstanding operation has a context of its own and a client socket of its own, whatever
`io_uring_get_sqe` answers (`Sound`); and if it has an entry for every client, the busy contexts
are just theirs (`Full`). The completed operation keeps its context until the next one has got
another, so for that long one more context is busy than there are operations, and there are ten to
spare.
-/

namespace LearnSpace.QpsTool

open Keel Function
open KvStore (Byte)

/-! ## Outstanding operations -/

/-- The operations whose completions are still to be handled. -/
def Place.waiting : Place → List Sqe
  | .batch cqes => cqes.map Completion.sqe
  | _ => []

/-- The operations that were prepared and have not been handled. -/
def Tool.outstanding (σ : Tool) : List Sqe := σ.inflight ++ σ.place.waiting ++ σ.sq

/-- The type of the context of an operation. -/
def Op.type : Op → EventType
  | connect _ => .CONNECT
  | recv _ _ _ => .RECV
  | send _ _ _ => .SEND

/-- What holds at every moment, whether there are entries or not. `held` are contexts in use by no
operation, and `fds` sockets. -/
structure Sound (config : Config) (held : List Nat) (fds : List Int) (σ : Tool) : Prop where
  size : σ.poolElState.length = config.clSize + 10
  keys : ∀ p, (σ.contexts p).key = p
  owned : Slots.Owned σ.poolElState (held ++ σ.outstanding.map Sqe.userData)
  fits : ∀ e ∈ σ.outstanding,
    (σ.contexts e.userData).type = e.op.type ∧ (σ.contexts e.userData).fd = e.fd
  sockets : (fds ++ σ.outstanding.map Sqe.fd).Subperm σ.clSockets
  few : σ.clSockets.length ≤ config.clSize

/-- No context is busy but those that are held and those of the operations. -/
def Full (held : List Nat) (σ : Tool) : Prop :=
  Slots.Covered σ.poolElState (held ++ σ.outstanding.map Sqe.userData)

variable {config : Config} {room : Nat → Bool} {held : List Nat} {fds : List Int} {σ τ υ : Tool}
  {p q : Nat} {fd : Int} {write : EventContext → EventContext} {prep : Nat → Op}
  {context : Option Nat}

/-! ## Taking a context and preparing an operation -/

/-- A context is taken from the pool. -/
theorem getEventContext_some (h : σ.getEventContext = (some q, τ)) :
    τ = { σ with poolElState := σ.poolElState.set q false } ∧
      σ.poolElState[q]? = some true := by
  unfold Tool.getEventContext at h
  cases hfree : Slots.firstFree σ.poolElState with
  | none =>
      rw [hfree] at h
      cases h
  | some i =>
      rw [hfree] at h
      cases h
      exact ⟨rfl, Slots.free_of_firstFree hfree⟩

theorem getEventContext_none (h : σ.getEventContext = (none, τ)) : τ = σ := by
  unfold Tool.getEventContext at h
  cases hfree : Slots.firstFree σ.poolElState with
  | none =>
      rw [hfree] at h
      cases h
      rfl
  | some i =>
      rw [hfree] at h
      cases h

theorem Sound.take (i : Sound config held fds σ) (h : σ.getEventContext = (some q, τ)) :
    Sound config (q :: held) fds τ := by
  obtain ⟨hτ, hfree⟩ := getEventContext_some h
  subst hτ
  refine ⟨?_, i.keys, i.owned.take hfree, i.fits, i.sockets, i.few⟩
  rw [List.length_set]
  exact i.size

theorem Full.take (f : Full held σ) (h : σ.getEventContext = (some q, τ)) : Full (q :: held) τ := by
  obtain ⟨hτ, -⟩ := getEventContext_some h
  subst hτ
  exact Slots.Covered.take f

/-- A context is written to. -/
def Tool.fill (σ : Tool) (q : Nat) (write : EventContext → EventContext) : Tool :=
  { σ with contexts := update σ.contexts q (write (σ.contexts q)) }

/-- An operation is put into the queue with its context. -/
def Tool.push (σ : Tool) (e : Sqe) : Tool := { σ with sq := σ.sq ++ [e] }

theorem outstanding_push (σ : Tool) (e : Sqe) :
    (σ.push e).outstanding = σ.outstanding ++ [e] := by
  simp only [Tool.outstanding, Tool.push, List.append_assoc]

/-- A context that is held is none of the operations'. -/
theorem Sound.fill (i : Sound config (q :: held) fds σ) (hkey : ∀ c, (write c).key = c.key) :
    Sound config (q :: held) fds (σ.fill q write) := by
  have hout := (List.nodup_cons.mp i.owned.nodup).1
  refine ⟨i.size, ?_, i.owned, ?_, i.sockets, i.few⟩
  · intro p
    show (update σ.contexts q _ p).key = p
    by_cases hp : p = q
    · rw [hp, update_self, hkey, i.keys]
    · rw [update_of_ne hp, i.keys]
  · intro e he
    have hne : e.userData ≠ q := by
      intro heq
      exact hout (List.mem_append_right held (heq ▸ List.mem_map_of_mem he))
    show (update σ.contexts q _ e.userData).type = _ ∧ (update σ.contexts q _ e.userData).fd = _
    rw [update_of_ne hne]
    exact i.fits e he

/-- The context belongs to the operation now, and so does the socket. -/
theorem Sound.push {op : Op} (i : Sound config (q :: held) (op.fd :: fds) σ)
    (hfits : (σ.contexts q).type = op.type ∧ (σ.contexts q).fd = op.fd) :
    Sound config held fds (σ.push ⟨op, q⟩) := by
  refine ⟨i.size, i.keys, ?_, ?_, ?_, i.few⟩
  · rw [outstanding_push, List.map_append]
    apply i.owned.perm
    rw [← List.append_assoc]
    exact (List.perm_append_singleton q _).symm
  · intro e he
    rw [outstanding_push] at he
    cases List.mem_append.mp he with
    | inl hold => exact i.fits e hold
    | inr hnew =>
        rw [List.mem_singleton.mp hnew]
        exact hfits
  · rw [outstanding_push, List.map_append, ← List.append_assoc]
    exact (List.perm_append_singleton op.fd _).subperm.trans i.sockets

theorem Full.push {op : Op} (f : Full (q :: held) σ) : Full held (σ.push ⟨op, q⟩) := by
  unfold Full
  rw [outstanding_push, List.map_append]
  apply Slots.Covered.perm f
  rw [← List.append_assoc]
  exact (List.perm_append_singleton q _).symm

/-- A context that was taken, and a socket, may be forgotten. -/
theorem Sound.forget (i : Sound config (q :: held) (fd :: fds) σ) :
    Sound config held fds σ :=
  ⟨i.size, i.keys, i.owned.tail, i.fits, (List.subperm_cons_self).trans i.sockets, i.few⟩

theorem Sound.forgetSocket (i : Sound config held (fd :: fds) σ) : Sound config held fds σ :=
  ⟨i.size, i.keys, i.owned, i.fits, (List.subperm_cons_self).trans i.sockets, i.few⟩

/-- A context is taken and an operation is prepared with it. -/
def Tool.ask (σ : Tool) (room : Nat → Bool) (write : EventContext → EventContext)
    (prep : Nat → Op) : Option Tool :=
  let (context, σ) := σ.getEventContext
  σ.setEvent room context write prep

/-- What is written into the context of an operation is its type and its descriptor. -/
structure Writes (write : EventContext → EventContext) (prep : Nat → Op) (fd : Int) : Prop where
  key : ∀ c, (write c).key = c.key
  fits : ∀ c q, (write c).type = (prep q).type ∧ (write c).fd = (prep q).fd
  target : ∀ q, (prep q).fd = fd

/-- With an entry, the operation is in the queue. -/
theorem setEvent_some (hroom : room σ.sq.length = true) :
    σ.setEvent room (some q) write prep = some ((σ.fill q write).push ⟨prep q, q⟩) := by
  unfold Tool.setEvent
  rw [if_pos hroom]
  rfl

theorem Sound.prepare (i : Sound config (q :: held) (fd :: fds) σ) (w : Writes write prep fd) :
    Sound config held fds ((σ.fill q write).push ⟨prep q, q⟩) := by
  apply Sound.push
  · rw [w.target]
    exact i.fill w.key
  · show (update σ.contexts q _ q).type = _ ∧ (update σ.contexts q _ q).fd = _
    rw [update_self]
    exact w.fits _ q

theorem ask_sound (i : Sound config held (fd :: fds) σ) (w : Writes write prep fd)
    (h : σ.ask room write prep = some τ) : Sound config held fds τ := by
  unfold Tool.ask at h
  cases hget : σ.getEventContext with
  | mk context υ =>
      rw [hget] at h
      dsimp only at h
      by_cases hroom : room υ.sq.length = true
      · cases context with
        | none =>
            rw [Tool.setEvent, if_pos hroom] at h
            cases h
        | some q =>
            rw [setEvent_some hroom] at h
            cases h
            exact (i.take hget).prepare w
      · rw [Tool.setEvent, if_neg hroom] at h
        cases h
        cases context with
        | none =>
            rw [getEventContext_none hget]
            exact i.forgetSocket
        | some q => exact (i.take hget).forget

/-- While there are fewer contexts in use than there are, one is found. -/
theorem getEventContext_full (f : Full held σ)
    (hfew : held.length + σ.outstanding.length < σ.poolElState.length) :
    ∃ q τ, σ.getEventContext = (some q, τ) := by
  have hlt : (held ++ σ.outstanding.map Sqe.userData).length < σ.poolElState.length := by
    rw [List.length_append, List.length_map]
    exact hfew
  obtain ⟨q, hq⟩ := Slots.exists_free f hlt
  unfold Tool.getEventContext
  rw [hq]
  exact ⟨q, _, rfl⟩

theorem ask_full (f : Full held σ) (hroom : room σ.sq.length = true)
    (hfew : held.length + σ.outstanding.length < σ.poolElState.length) :
    ∃ τ, σ.ask room write prep = some τ ∧ Full held τ := by
  obtain ⟨q, υ, hget⟩ := getEventContext_full f hfew
  obtain ⟨hυ, -⟩ := getEventContext_some hget
  have hroom' : room υ.sq.length = true := by
    rw [hυ]
    exact hroom
  refine ⟨(υ.fill q write).push ⟨prep q, q⟩, ?_, ?_⟩
  · unfold Tool.ask
    rw [hget]
    exact setEvent_some hroom'
  · have ftake : Full (q :: held) υ := f.take hget
    have ffill : Full (q :: held) (υ.fill q write) := ftake
    exact ffill.push

/-! ## Giving a context back -/

theorem putEventContext_sound (i : Sound config (p :: held) fds σ) :
    ∃ τ, σ.putEventContext p = some τ ∧ Sound config held fds τ ∧
      (Full (p :: held) σ → Full held τ) := by
  obtain ⟨hout, -⟩ := List.nodup_cons.mp i.owned.nodup
  have hlt : p < σ.poolElState.length :=
    (List.getElem?_eq_some_iff.mp (i.owned.busy p List.mem_cons_self)).1
  have hkey := i.keys p
  have hvalid : 0 ≤ (σ.contexts p).key ∧ (σ.contexts p).key.toNat < σ.poolElState.length := by
    rw [hkey]
    omega
  have hindex : (σ.contexts p).key.toNat = p := by
    rw [hkey]
    exact Int.toNat_natCast p
  let write (c : EventContext) : EventContext :=
    { c with fd := -1, type := .UNDEF, buffer := List.replicate bufferLen 0 }
  refine ⟨{ σ.fill p write with poolElState := σ.poolElState.set p true }, ?_, ?_, ?_⟩
  · unfold Tool.putEventContext
    rw [if_pos hvalid, hindex]
    rfl
  · have iwrite : Sound config (p :: held) fds (σ.fill p write) := i.fill fun _ => rfl
    exact ⟨by rw [List.length_set]; exact i.size, iwrite.keys, iwrite.owned.put, iwrite.fits,
      iwrite.sockets, iwrite.few⟩
  · intro f
    exact Slots.Covered.put f

/-! ## The switch -/

theorem writes_send (fd : Int) (msg : List Byte) (len : Nat) :
    Writes (fun c => { c with
      type := .SEND, fd := fd, buffer := msg.take len ++ c.buffer.drop len })
      (fun context => .send fd context len) fd :=
  ⟨fun _ => rfl, fun _ _ => ⟨rfl, rfl⟩, fun _ => rfl⟩

theorem writes_recv (fd : Int) :
    Writes (fun c => { c with type := .RECV, fd := fd })
      (fun context => .recv fd context bufferLen) fd :=
  ⟨fun _ => rfl, fun _ _ => ⟨rfl, rfl⟩, fun _ => rfl⟩

theorem dispatch_sound {context : EventContext} (i : Sound config held (context.fd :: fds) σ)
    (h : σ.dispatch config room context = some τ) : Sound config held fds τ := by
  unfold Tool.dispatch at h
  cases htype : context.type with
  | UNDEF | ACCEPT =>
      rw [htype] at h
      cases h
      exact i.forgetSocket
  | CONNECT =>
      rw [htype] at h
      exact ask_sound i (writes_send context.fd _ _) h
  | RECV =>
      rw [htype] at h
      dsimp only at h
      split at h
      · -- only the number of answers changes before
        have icount : Sound config held (context.fd :: fds)
            { σ with finishedCount := σ.finishedCount + 1 } :=
          ⟨i.size, i.keys, i.owned, i.fits, i.sockets, i.few⟩
        exact ask_sound icount (writes_send context.fd _ _) h
      · cases h
  | SEND =>
      rw [htype] at h
      exact ask_sound i (writes_recv context.fd) h

theorem dispatch_full {context : EventContext} (f : Full held σ)
    (hroom : room σ.sq.length = true)
    (hfew : held.length + σ.outstanding.length < σ.poolElState.length)
    (hcount : context.type = .RECV → σ.finishedCount + 1 < 2 ^ 31) :
    ∃ τ, σ.dispatch config room context = some τ ∧ Full held τ := by
  unfold Tool.dispatch
  cases htype : context.type with
  | UNDEF | ACCEPT => exact ⟨σ, rfl, f⟩
  | CONNECT | SEND => exact ask_full f hroom hfew
  | RECV =>
      dsimp only
      rw [if_pos (hcount htype)]
      have fcount : Full held { σ with finishedCount := σ.finishedCount + 1 } := f
      exact ask_full fcount hroom hfew

/-! ## The steps -/

/-- The context and the socket of a completion are held while it is handled. -/
theorem outstanding_batch {c : Completion} {cs : List Completion}
    (hplace : σ.place = .batch (c :: cs)) :
    σ.outstanding.Perm (c.sqe :: ({ σ with place := .batch cs } : Tool).outstanding) := by
  unfold Tool.outstanding Place.waiting
  rw [hplace]
  simp only [List.map_cons, List.append_assoc, List.cons_append]
  exact List.perm_middle

theorem Sound.begin {c : Completion} {cs : List Completion} (i : Sound config [] [] σ)
    (hplace : σ.place = .batch (c :: cs)) :
    Sound config [c.sqe.userData] [c.sqe.fd] { σ with place := .batch cs } := by
  have hperm := outstanding_batch hplace
  refine ⟨i.size, i.keys, i.owned.perm (hperm.map Sqe.userData), ?_, ?_, i.few⟩
  · intro e he
    exact i.fits e (hperm.mem_iff.mpr (List.mem_cons_of_mem _ he))
  · exact (hperm.map Sqe.fd).symm.subperm.trans i.sockets

theorem Full.begin {c : Completion} {cs : List Completion} (f : Full [] σ)
    (hplace : σ.place = .batch (c :: cs)) :
    Full [c.sqe.userData] { σ with place := .batch cs } :=
  Slots.Covered.perm f ((outstanding_batch hplace).map Sqe.userData)

/-- A completion is handled. -/
theorem handle_sound {c : Completion} (i : Sound config [c.sqe.userData] [c.sqe.fd] σ)
    (hfits : (σ.contexts c.sqe.userData).fd = c.sqe.fd)
    (h : σ.handle config room c = some τ) : Sound config [] [] τ := by
  have hput : ∀ {fds} {υ τ : Tool}, Sound config [c.sqe.userData] fds υ →
      υ.putEventContext c.sqe.userData = some τ → Sound config [] fds τ := by
    intro fds υ τ j hτ
    obtain ⟨τ', hτ', jτ, -⟩ := putEventContext_sound j
    rw [hτ] at hτ'
    cases hτ'
    exact jτ
  unfold Tool.handle at h
  split at h
  · exact (hput i h).forgetSocket
  · obtain ⟨υ, hdispatch, hτ⟩ := Option.bind_eq_some_iff.mp h
    rw [← hfits] at i
    exact hput (dispatch_sound i hdispatch) hτ

/-- And if there is an entry, nothing but an overflow is in the way. -/
theorem handle_full {c : Completion} (i : Sound config [c.sqe.userData] [c.sqe.fd] σ)
    (f : Full [c.sqe.userData] σ)
    (hfits : (σ.contexts c.sqe.userData).type = c.sqe.op.type ∧
      (σ.contexts c.sqe.userData).fd = c.sqe.fd)
    (hroom : ∀ n, n < config.clSize → room n = true)
    (hcount : c.sqe.op.type = .RECV → 0 ≤ c.res → σ.finishedCount + 1 < 2 ^ 31) :
    ∃ τ, σ.handle config room c = some τ ∧ Full [] τ := by
  -- the completion is one of at most `clSize` operations
  have hle := i.sockets.length_le.trans i.few
  rw [List.length_append, List.length_singleton, List.length_map] at hle
  have hsq : σ.sq.length ≤ σ.outstanding.length := by
    unfold Tool.outstanding
    rw [List.length_append]
    omega
  have hsize := i.size
  unfold Tool.handle
  split
  · obtain ⟨τ, hτ, -, hfull⟩ := putEventContext_sound i
    exact ⟨τ, hτ, hfull f⟩
  · rename_i hres
    have hfew : [c.sqe.userData].length + σ.outstanding.length < σ.poolElState.length := by
      rw [List.length_singleton]
      omega
    have hmore : (σ.contexts c.sqe.userData).type = .RECV → σ.finishedCount + 1 < 2 ^ 31 := by
      intro htype
      exact hcount (hfits.1.symm.trans htype) (Int.not_lt.mp hres)
    obtain ⟨υ, hdispatch, fυ⟩ := dispatch_full f (hroom _ (by omega)) hfew hmore
    rw [← hfits.2] at i
    obtain ⟨τ, hτ, -, hfull⟩ := putEventContext_sound (dispatch_sound i hdispatch)
    refine ⟨τ, ?_, hfull fυ⟩
    rw [hdispatch]
    exact hτ

/-- An answer that is handled has been counted. -/
theorem count_of_handle {c : Completion} (h : σ.handle config room c = some τ) (hres : 0 ≤ c.res)
    (htype : (σ.contexts c.sqe.userData).type = .RECV) : σ.finishedCount + 1 < 2 ^ 31 := by
  unfold Tool.handle at h
  rw [if_neg (Int.not_lt.mpr hres)] at h
  obtain ⟨υ, hdispatch, -⟩ := Option.bind_eq_some_iff.mp h
  unfold Tool.dispatch at hdispatch
  rw [htype] at hdispatch
  dsimp only at hdispatch
  split at hdispatch
  · rename_i hlt
    exact hlt
  · cases hdispatch

/-- A client is connected. -/
theorem setConnectEvent_sound (i : Sound config [] [fd] σ) :
    Sound config [] [] (σ.setConnectEvent room fd) := by
  unfold Tool.setConnectEvent
  cases hget : σ.getEventContext with
  | mk context υ =>
      cases context with
      | none =>
          rw [getEventContext_none hget]
          exact i.forgetSocket
      | some q =>
          have itake := i.take hget
          have ifill : Sound config [q] [fd]
              (υ.fill q fun c => { c with fd := fd, type := .CONNECT }) :=
            itake.fill fun _ => rfl
          dsimp only
          split
          · have hfits : ((υ.fill q fun c => { c with fd := fd, type := .CONNECT }).contexts q).type =
                (Op.connect fd).type ∧
                ((υ.fill q fun c => { c with fd := fd, type := .CONNECT }).contexts q).fd = fd := by
              show (update υ.contexts q _ q).type = _ ∧ (update υ.contexts q _ q).fd = _
              rw [update_self]
              exact ⟨rfl, rfl⟩
            exact Sound.push (show Sound config [q] ((Op.connect fd).fd :: []) _ from ifill) hfits
          · exact ifill.forget

theorem setConnectEvent_full (f : Full [] σ) (hroom : room σ.sq.length = true)
    (hfew : σ.outstanding.length < σ.poolElState.length) :
    Full [] (σ.setConnectEvent room fd) := by
  obtain ⟨q, υ, hget⟩ := getEventContext_full f (by simpa using hfew)
  obtain ⟨hυ, -⟩ := getEventContext_some hget
  have hroom' : room υ.sq.length = true := by
    rw [hυ]
    exact hroom
  have ftake : Full [q] υ := f.take hget
  have ffill : Full [q] (υ.fill q fun c => { c with fd := fd, type := .CONNECT }) := ftake
  have hset : σ.setConnectEvent room fd =
      (υ.fill q fun c => { c with fd := fd, type := .CONNECT }).push ⟨.connect fd, q⟩ := by
    unfold Tool.setConnectEvent
    rw [hget]
    exact if_pos hroom'
  rw [hset]
  exact ffill.push

theorem new_sound (config : Config) : Sound config [] [] (.new config) ∧ Full [] (.new config) := by
  refine ⟨⟨?_, fun _ => rfl, ⟨List.nodup_nil, nofun⟩, nofun, List.Subperm.refl _,
    Nat.zero_le _⟩, ?_⟩
  · exact List.length_replicate
  · intro p hp
    have hbusy := List.getElem?_replicate.symm.trans hp
    split at hbusy <;> cases hbusy

/-- Nothing changes but where the operations are. -/
theorem Sound.move {τ : Tool} (i : Sound config [] [] σ)
    (hperm : σ.outstanding.Perm τ.outstanding) (hcontexts : τ.contexts = σ.contexts)
    (hpool : τ.poolElState = σ.poolElState) (hsockets : τ.clSockets = σ.clSockets) :
    Sound config [] [] τ := by
  refine ⟨hpool ▸ i.size, hcontexts ▸ i.keys, ?_, ?_, ?_, hsockets ▸ i.few⟩
  · rw [hpool]
    exact i.owned.perm (hperm.map Sqe.userData)
  · intro e he
    rw [hcontexts]
    exact i.fits e (hperm.mem_iff.mpr he)
  · rw [hsockets]
    exact (hperm.map Sqe.fd).symm.subperm.trans i.sockets

theorem Full.move {τ : Tool} (f : Full [] σ) (hperm : σ.outstanding.Perm τ.outstanding)
    (hpool : τ.poolElState = σ.poolElState) : Full [] τ := by
  unfold Full
  rw [hpool]
  exact Slots.Covered.perm f (hperm.map Sqe.userData)

theorem setConnectEvent_sockets (sockets : List Int) :
    ({ σ.setConnectEvent room fd with clSockets := sockets } : Tool) =
      ({ σ with clSockets := sockets } : Tool).setConnectEvent room fd := by
  unfold Tool.setConnectEvent Tool.getEventContext
  cases Slots.firstFree σ.poolElState with
  | none => rfl
  | some i =>
      dsimp only
      split <;> rfl

/-- A client has got a socket. -/
theorem Sound.socket (i : Sound config [] [] σ) (hmore : σ.clSockets.length < config.clSize) :
    Sound config [] [fd] { σ with clSockets := σ.clSockets ++ [fd] } := by
  refine ⟨i.size, i.keys, i.owned, i.fits, ?_, ?_⟩
  · have hcons := (List.subperm_cons fd).mpr i.sockets
    exact hcons.trans (List.perm_append_singleton fd _).symm.subperm
  · show (σ.clSockets ++ [fd]).length ≤ config.clSize
    rw [List.length_append, List.length_singleton]
    exact hmore

/-- The submitted operations are in flight. -/
theorem outstanding_submit (σ : Tool) (hplace : σ.place.waiting = []) :
    σ.outstanding.Perm ({ σ.submit with place := .top } : Tool).outstanding := by
  unfold Tool.outstanding Tool.submit
  rw [hplace]
  simp [Place.waiting]

theorem outstanding_peek {batch : List Completion} {rest : List Sqe} (hplace : σ.place = .top)
    (hcompleted : σ.inflight.Perm (batch.map Completion.sqe ++ rest)) :
    σ.outstanding.Perm ({ σ with inflight := rest, place := .batch batch } : Tool).outstanding := by
  unfold Tool.outstanding
  rw [hplace]
  simp only [Place.waiting, List.append_nil]
  exact (hcompleted.trans List.perm_append_comm).append_right σ.sq

/-! ## Runs -/

/-- What holds whatever `io_uring_get_sqe` answers. -/
theorem runs_sound (config : Config) (room : Nat → Bool) :
    (runs config room).Inductive (Sound config [] []) where
  init := by
    intro σ hσ
    rw [show σ = .new config from hσ]
    exact (new_sound config).1
  step := by
    intro σ e τ i hstep
    cases hstep with
    | socket fd hplace hmore =>
        rw [setConnectEvent_sockets]
        exact setConnectEvent_sound (i.socket hmore)
    | start hplace hall =>
        exact i.move (outstanding_submit σ (by rw [hplace]; rfl)) rfl rfl rfl
    | peek overTime batch rest hplace hgoes hsize hcompleted =>
        exact i.move (outstanding_peek hplace hcompleted) rfl rfl rfl
    | cqe c cs hplace hhandle =>
        have hfits := i.fits c.sqe ((outstanding_batch hplace).mem_iff.mpr List.mem_cons_self)
        exact handle_sound (i.begin hplace) hfits.2 hhandle
    | turn hplace =>
        exact i.move (outstanding_submit σ (by rw [hplace]; rfl)) rfl rfl rfl

/-- And what holds when there is an entry for every client. -/
theorem runs_full (hroom : ∀ n, n < config.clSize → room n = true) :
    (runs config room).Inductive fun σ => Sound config [] [] σ ∧ Full [] σ where
  init := by
    intro σ hσ
    rw [show σ = .new config from hσ]
    exact new_sound config
  step := by
    intro σ e τ h hstep
    refine ⟨(runs_sound config room).step σ e τ h.1 hstep, ?_⟩
    obtain ⟨i, f⟩ := h
    have hfew := i.sockets.length_le
    rw [List.nil_append, List.length_map] at hfew
    have hsize := i.size
    have hclients := i.few
    cases hstep with
    | socket fd hplace hmore =>
        rw [setConnectEvent_sockets]
        have hsq : σ.sq.length ≤ σ.outstanding.length := by
          unfold Tool.outstanding
          rw [List.length_append]
          omega
        have fsocket : Full [] { σ with clSockets := σ.clSockets ++ [fd] } := f
        apply setConnectEvent_full fsocket (hroom _ (by dsimp only; omega))
        show σ.outstanding.length < σ.poolElState.length
        omega
    | start hplace hall => exact f.move (outstanding_submit σ (by rw [hplace]; rfl)) rfl
    | peek overTime batch rest hplace hgoes hsize hcompleted =>
        exact f.move (outstanding_peek hplace hcompleted) rfl
    | cqe c cs hplace hhandle =>
        have hfits := i.fits c.sqe ((outstanding_batch hplace).mem_iff.mpr List.mem_cons_self)
        have hcount : c.sqe.op.type = .RECV → 0 ≤ c.res → σ.finishedCount + 1 < 2 ^ 31 := by
          intro htype hres
          have hlt := count_of_handle hhandle hres (hfits.1.trans htype)
          exact hlt
        obtain ⟨τ', hτ', fτ⟩ := handle_full (i.begin hplace) (f.begin hplace) hfits hroom hcount
        rw [hhandle] at hτ'
        cases hτ'
        exact fτ
    | turn hplace => exact f.move (outstanding_submit σ (by rw [hplace]; rfl)) rfl

/-! ## The claim -/

/-- Each outstanding operation has a context of its own, which is busy, and the others are free. It
has a client socket of its own, so that there are at most as many as clients; and there is a
context to be had. -/
structure Pooled (config : Config) (σ : Tool) : Prop where
  own : (σ.outstanding.map Sqe.userData).Nodup
  busy : ∀ p, σ.poolElState[p]? = some false ↔ p ∈ σ.outstanding.map Sqe.userData
  sockets : (σ.outstanding.map Sqe.fd).Subperm σ.clSockets
  few : σ.outstanding.length ≤ config.clSize
  found : σ.getEventContext.1 ≠ none

theorem pooled_of_full (i : Sound config [] [] σ) (f : Full [] σ) : Pooled config σ := by
  have hle := i.sockets.length_le
  rw [List.nil_append, List.length_map] at hle
  have hfew := hle.trans i.few
  have hsize := i.size
  refine ⟨i.owned.nodup, ?_, i.sockets, hfew, ?_⟩
  · intro p
    exact ⟨f p, i.owned.busy p⟩
  · obtain ⟨q, τ, hget⟩ := getEventContext_full f (by rw [List.length_nil]; omega)
    rw [hget]
    exact Option.some_ne_none q

/-- **The pool of contexts.** If `io_uring_get_sqe` has an entry while fewer than `clSize` are not
submitted, then at every moment of every run the busy contexts are those of the outstanding
operations, each of which has its own, and a context is found whenever one is looked for. Every
completion of a batch is handled, unless it is an answer that `finishedCount` has no room for. -/
theorem runs_pooled (hroom : ∀ n, n < config.clSize → room n = true)
    (hσ : (runs config room).Reachable σ) :
    Pooled config σ ∧ ∀ c cs, σ.place = .batch (c :: cs) →
      (c.sqe.op.type = .RECV → 0 ≤ c.res → σ.finishedCount + 1 < 2 ^ 31) →
        ∃ τ, (runs config room).step σ .cqe τ ∧ Pooled config τ := by
  obtain ⟨i, f⟩ := (runs_full hroom).invariant σ hσ
  refine ⟨pooled_of_full i f, ?_⟩
  intro c cs hplace hcount
  have hfits := i.fits c.sqe ((outstanding_batch hplace).mem_iff.mpr List.mem_cons_self)
  obtain ⟨τ, hhandle, -⟩ := handle_full (i.begin hplace) (f.begin hplace) hfits hroom hcount
  have hstep : (runs config room).step σ .cqe τ := .cqe c cs hplace hhandle
  obtain ⟨iτ, fτ⟩ := (runs_full hroom).step σ .cqe τ ⟨i, f⟩ hstep
  exact ⟨τ, hstep, pooled_of_full iτ fτ⟩

/-- One client that has just been connected. -/
theorem runs_pooled_one :
    ∃ σ, (runs { clSize := 1, mode := .Time, durationTime := 5 } (· < 1)).Reachable σ ∧
      σ.place = .batch [⟨⟨.connect 3, 0⟩, 0⟩] ∧
      Pooled { clSize := 1, mode := .Time, durationTime := 5 } σ := by
  have hreach : (runs { clSize := 1, mode := .Time, durationTime := 5 } (· < 1)).Reachable _ :=
    .step (.step (.step (.init rfl) (.socket 3 rfl Nat.zero_lt_one)) (.start rfl rfl))
      (.peek 0 [⟨⟨.connect 3, 0⟩, 0⟩] [] rfl rfl (by decide) (List.Perm.refl _))
  exact ⟨_, hreach, rfl, (runs_pooled (by simp) hreach).1⟩

end LearnSpace.QpsTool
