import LearnSpace.IoURingServer.Outstanding

/-!
# Batches of completions

What a completion does is said once (`completed_eq`): the context of the operation goes, and
operations on the wanted targets come, as far as the queue has entries. So one completion is
a turn of what is due, and a batch leaves nothing out exactly if it is sound.
-/

namespace LearnSpace.IoURingServer

open Keel Function
open KvStore (Byte)

variable {listenFd : Int} {σ τ τ' : Server} {p : Ptr} {ts : List Target}
  {context : EventContext} {e : Sqe} {c : Completion}

/-! ## One completion -/

/-- The operation is no longer under way, and its context is still live. -/
theorem perm_erase (hmem : e ∈ σ.inflight) :
    σ.outstanding.Perm (e :: (σ.inflight.erase e ++ σ.sq)) :=
  (List.perm_cons_erase hmem).append_right σ.sq

/-- The context is deleted, and the completion has been handled. -/
theorem Asked.handled (a : Asked listenFd p σ τ ts)
    (hperm : τ'.outstanding.Perm (e :: σ.outstanding)) (hsq : σ.sq = τ'.sq)
    (hflag : τ.needSubmit = true ∨ (τ.needSubmit = τ'.needSubmit ∧ τ.sq = τ'.sq)) :
    ∃ υ, τ.deleteContext p = some υ ∧ Handled listenFd τ' υ e ts τ.isOpen := by
  obtain ⟨h', hfree, howned⟩ := a.owned.delete
  refine ⟨{ τ with contexts := h' }, ?_, howned, ⟨σ.outstanding.map Sqe.target, ?_, ?_⟩, ?_, rfl,
    hflag⟩
  · simp only [Server.deleteContext, hfree, Option.bind_eq_bind, Option.bind_some, Option.pure_def]
  · exact hperm.map Sqe.target
  · rw [← hsq]
    exact a.targets
  · rw [← hsq]
    exact a.queued

/-- The handling of a result that is no error. -/
theorem handle_ok (hcell : σ.contexts.cell p = some context) {res : Int} (hres : ¬ res < 0)
    (hdispatch : σ.dispatch listenFd context res = some τ) :
    σ.handle listenFd p res = τ.deleteContext p := by
  simp only [Server.handle, Heap.load, hcell, hdispatch, if_neg hres, Option.bind_eq_bind,
    Option.bind_some]

/-- The handling of an error. -/
theorem handle_error (hcell : σ.contexts.cell p = some context) {res : Int} (hres : res < 0) :
    σ.handle listenFd p res =
      (if context.fd > 0 then σ.close context.fd else σ).deleteContext p := by
  simp only [Server.handle, Heap.load, hcell, if_pos hres, Option.bind_eq_bind, Option.bind_some]

/-- An `accept` completes. -/
theorem completed_accept (o : Owned listenFd σ.contexts σ.outstanding none)
    (hsq : σ.sq.length ≤ sqEntries) (hmem : c.sqe ∈ σ.inflight) {fd : Int}
    (hop : c.sqe.op = .accept fd) :
    ∃ τ, σ.completed listenFd c = some τ ∧
      Handled listenFd σ τ c.sqe (c.wanted listenFd) (c.isOpen σ.isOpen) := by
  have hperm := perm_erase hmem
  have o' := o.perm hperm
  obtain ⟨context, hcell, hof⟩ := o'.of c.sqe List.mem_cons_self
  rw [Sqe.Of, hop] at hof
  obtain ⟨rfl, htype, hfd⟩ := hof
  have hsame : σ.contexts.cell = update σ.contexts.cell c.sqe.userData (some context) := by
    rw [← hcell, update_eq_self]
  have hown := o'.complete hsame
  rw [Server.completed, Server.complete, hop, Completion.wanted, Completion.isOpen, hop]
  by_cases hres : c.res < 0
  · -- the context of an `accept` has the descriptor -1, so nothing is closed
    have hno : ¬ context.fd > 0 := by omega
    simp only [if_pos hres, if_neg (Int.not_le.mpr hres), Option.bind_eq_bind, Option.bind_some]
    rw [handle_error (σ := { σ with inflight := σ.inflight.erase c.sqe }) hcell hres, if_neg hno]
    exact (Asked.refl (σ := { σ with inflight := σ.inflight.erase c.sqe }) hown hsq).handled hperm
      rfl (.inr ⟨rfl, rfl⟩)
  · simp only [if_neg hres, if_pos (Int.not_lt.mp hres), Option.bind_eq_bind, Option.bind_some]
    let υ : Server :=
      { σ with inflight := σ.inflight.erase c.sqe, isOpen := update σ.isOpen c.res true }
    obtain ⟨τ, hdispatch, a, hflag⟩ := dispatch_accept (σ := υ) hown hsq htype c.res
    rw [handle_ok (σ := υ) hcell hres hdispatch]
    have hopen : τ.isOpen = update σ.isOpen c.res true := a.isOpen
    rw [← hopen]
    exact a.handled hperm rfl (.inl hflag)

/-- A connection is closed behind a completion, or stays as it is. -/
theorem completed_quiet (hown : Owned listenFd σ.contexts σ.outstanding (some p))
    (hsq : σ.sq.length ≤ sqEntries) (hperm : τ'.outstanding.Perm (e :: σ.outstanding))
    (hσ : σ.sq = τ'.sq) (hflag : σ.needSubmit = τ'.needSubmit) (isOpen : Int → Bool) :
    ∃ υ, ({ σ with isOpen := isOpen } : Server).deleteContext p = some υ ∧
      Handled listenFd τ' υ e [] isOpen :=
  (Asked.refl (σ := { σ with isOpen := isOpen }) hown hsq).handled hperm hσ (.inr ⟨hflag, hσ⟩)

/-- A `recv` or a `send` completes, and what comes next is known if something was
transferred. -/
theorem handled_client (hcell : σ.contexts.cell p = some context)
    (hown : Owned listenFd σ.contexts σ.outstanding (some p)) (hsq : σ.sq.length ≤ sqEntries)
    (htype : context.type = .RECV ∨ context.type = .SEND)
    (hperm : τ'.outstanding.Perm (e :: σ.outstanding)) (hσ : σ.sq = τ'.sq)
    (hflag : σ.needSubmit = τ'.needSubmit) {res : Int}
    (hpos : 0 < res → ∃ τ, σ.dispatch listenFd context res = some τ ∧
      Asked listenFd p σ τ [.client context.fd] ∧ τ.needSubmit = true) :
    ∃ υ, σ.handle listenFd p res = some υ ∧
      Handled listenFd τ' υ e (if res ≤ 0 then [] else [.client context.fd])
        (if res = 0 ∨ (res < 0 ∧ context.fd > 0) then update σ.isOpen context.fd false
          else σ.isOpen) := by
  rcases Int.lt_trichotomy res 0 with hneg | hzero | hgt
  · -- an error closes the connection, but for 0
    rw [handle_error hcell hneg, if_pos (Int.le_of_lt hneg)]
    by_cases hfd : context.fd > 0
    · rw [if_pos hfd, if_pos (.inr ⟨hneg, hfd⟩)]
      exact completed_quiet hown hsq hperm hσ hflag _
    · have hopen : ¬ (res = 0 ∨ (res < 0 ∧ context.fd > 0)) := by
        rintro (hzero | ⟨-, hgt⟩)
        · omega
        · exact hfd hgt
      rw [if_neg hfd, if_neg hopen]
      exact completed_quiet hown hsq hperm hσ hflag σ.isOpen
  · -- the peer has closed
    subst hzero
    rw [handle_ok hcell (Int.lt_irrefl 0) (dispatch_zero htype), if_pos (Int.le_refl 0),
      if_pos (.inl rfl)]
    exact completed_quiet hown hsq hperm hσ hflag _
  · obtain ⟨τ, hdispatch, a, hneed⟩ := hpos hgt
    have hopen : ¬ (res = 0 ∨ (res < 0 ∧ context.fd > 0)) := by omega
    rw [handle_ok hcell (by omega) hdispatch, if_neg (by omega), if_neg hopen, ← a.isOpen]
    exact a.handled hperm hσ (.inl hneed)

/-- A `send` completes. -/
theorem completed_send (o : Owned listenFd σ.contexts σ.outstanding none)
    (hsq : σ.sq.length ≤ sqEntries) (hmem : c.sqe ∈ σ.inflight) {fd : Int} {buffer : Ptr}
    {len : Nat}
    (hop : c.sqe.op = .send fd buffer len) :
    ∃ τ, σ.completed listenFd c = some τ ∧
      Handled listenFd σ τ c.sqe (c.wanted listenFd) (c.isOpen σ.isOpen) := by
  have hperm := perm_erase hmem
  have o' := o.perm hperm
  obtain ⟨context, hcell, hof⟩ := o'.of c.sqe List.mem_cons_self
  rw [Sqe.Of, hop] at hof
  obtain ⟨-, -, htype, rfl⟩ := hof
  have hsame : σ.contexts.cell = update σ.contexts.cell c.sqe.userData (some context) := by
    rw [← hcell, update_eq_self]
  have hown := o'.complete hsame
  rw [Server.completed, Server.complete, hop, Completion.wanted, Completion.isOpen, hop]
  simp only [Option.bind_eq_bind, Option.bind_some]
  apply handled_client (σ := { σ with inflight := σ.inflight.erase c.sqe }) hcell hown hsq
    (.inr htype) hperm rfl rfl
  intro hres
  exact dispatch_send (σ := { σ with inflight := σ.inflight.erase c.sqe }) hown hsq htype
    (Int.ne_of_gt hres)

/-- Some received bytes leave a zero in the buffer, and these are all but the ones that fill
it without one. -/
theorem zero_mem_buffer {data : List Byte} :
    0 ∈ data ++ (List.replicate bufferLen 0).drop data.length ↔
      ¬ (bufferLen ≤ data.length ∧ 0 ∉ data) := by
  rw [List.mem_append, List.drop_replicate, List.mem_replicate]
  constructor
  · rintro (hmem | ⟨hne, -⟩) ⟨hfull, hnot⟩
    · exact hnot hmem
    · omega
  · intro hnot
    by_cases hmem : 0 ∈ data
    · exact .inl hmem
    · right
      have hshort : ¬ bufferLen ≤ data.length := fun hfull => hnot ⟨hfull, hmem⟩
      exact ⟨by omega, rfl⟩

/-- A `recv` completes: the received text is printed, and has to end for it. -/
theorem completed_recv (o : Owned listenFd σ.contexts σ.outstanding none)
    (hsq : σ.sq.length ≤ sqEntries) (hl : c.Legal σ) {fd : Int} {buffer : Ptr} {len : Nat}
    (hop : c.sqe.op = .recv fd buffer len) :
    (c.Unterminated → σ.completed listenFd c = none) ∧
      (¬ c.Unterminated → ∃ τ, σ.completed listenFd c = some τ ∧
        Handled listenFd σ τ c.sqe (c.wanted listenFd) (c.isOpen σ.isOpen)) := by
  obtain ⟨hmem, hdata⟩ := hl
  have hperm := perm_erase hmem
  have o' := o.perm hperm
  obtain ⟨context, hcell, hof⟩ := o'.of c.sqe List.mem_cons_self
  rw [Sqe.Of, hop] at hof
  rw [hop] at hdata
  obtain ⟨rfl, rfl, htype, rfl, hbuffer⟩ := hof
  obtain ⟨hres, hlength⟩ := hdata
  obtain ⟨h', hmodify, hcell', -⟩ := Heap.modify_eq hcell fun context =>
    { context with buffer := c.data ++ context.buffer.drop c.data.length }
  -- the buffer was zero, so behind the received bytes it still is
  rw [hbuffer] at hcell'
  have hnow : h'.cell c.sqe.userData = some { context with
      buffer := c.data ++ (List.replicate bufferLen 0).drop c.data.length } := by
    rw [hcell', update_self]
  have hown := o'.complete hcell'
  rw [Server.completed, Server.complete, hop, Completion.wanted, Completion.isOpen, hop,
    Completion.Unterminated, hop]
  simp only [hmodify, Option.bind_eq_bind, Option.bind_some, Option.pure_def]
  let υ : Server := { σ with inflight := σ.inflight.erase c.sqe, contexts := h' }
  constructor
  · rintro ⟨hpos, hfull⟩
    have hnot : ¬ 0 ∈ c.data ++ (List.replicate bufferLen 0).drop c.data.length :=
      fun hzero => zero_mem_buffer.mp hzero hfull
    show υ.handle listenFd c.sqe.userData c.res = none
    rw [Server.handle, Heap.load, hnow]
    simp only [Option.bind_eq_bind, Option.bind_some, if_neg (Int.not_lt.mpr (Int.le_of_lt hpos)),
      Server.dispatch, htype, if_neg (Int.ne_of_gt hpos), if_neg hnot, Option.bind_none]
  · intro hends
    apply handled_client (σ := υ) hnow hown hsq (.inl htype) hperm rfl rfl
    intro hpos
    have hzero : 0 ∈ c.data ++ (List.replicate bufferLen 0).drop c.data.length :=
      zero_mem_buffer.mpr fun hfull => hends ⟨hpos, hfull⟩
    apply dispatch_recv (σ := υ)
    · exact hown
    · exact hsq
    · exact htype
    · exact Int.ne_of_gt hpos
    · exact hzero
    · rw [← hlength, List.length_append]
      exact Nat.le_add_right _ _
    · exact Int.toNat_le.mpr hres

/-- **What a completion does.** Only text that does not end is undefined. -/
theorem completed_eq (o : Owned listenFd σ.contexts σ.outstanding none)
    (hsq : σ.sq.length ≤ sqEntries) (hl : c.Legal σ) :
    (c.Unterminated → σ.completed listenFd c = none) ∧
      (¬ c.Unterminated → ∃ τ, σ.completed listenFd c = some τ ∧
        Handled listenFd σ τ c.sqe (c.wanted listenFd) (c.isOpen σ.isOpen)) := by
  cases hop : c.sqe.op with
  | accept fd =>
      refine ⟨?_, fun _ => completed_accept o hsq hl.1 hop⟩
      intro hnot
      rw [Completion.Unterminated, hop] at hnot
      exact hnot.elim
  | recv fd buffer len => exact completed_recv o hsq hl hop
  | send fd buffer len =>
      refine ⟨?_, fun _ => completed_send o hsq hl.1 hop⟩
      intro hnot
      rw [Completion.Unterminated, hop] at hnot
      exact hnot.elim

/-! ## A completion as a turn of what is due -/

/-- The contexts are in order, the queue is within its bounds, and what is under way is
due. This holds whatever happens. -/
structure Orderly (listenFd : Int) (σ : Server) : Prop where
  owned : Owned listenFd σ.contexts σ.outstanding none
  queued : σ.sq.length ≤ sqEntries
  tidy : Tidy (Due listenFd σ.isOpen) (σ.outstanding.map Sqe.target)
  flagged : σ.needSubmit = false → σ.sq = []

/-- Nothing has been left out. -/
def Complete (listenFd : Int) (σ : Server) : Prop :=
  Covers (Due listenFd σ.isOpen) (σ.outstanding.map Sqe.target)

/-- A `recv` or a `send` completes: its connection is closed, forgotten, or gets the next
operation. -/
theorem turn_client {isOpen : Int → Bool} {fd : Int} (hopen : isOpen fd = true) (res : Int) :
    Turn (Due listenFd isOpen)
      (Due listenFd (if res = 0 ∨ (res < 0 ∧ fd > 0) then update isOpen fd false else isOpen))
      (.client fd) (if res ≤ 0 then [] else [.client fd]) := by
  by_cases hres : res ≤ 0
  · rw [if_pos hres]
    refine ⟨List.nodup_nil, nofun, nofun, ?_⟩
    intro s hs hne
    cases s with
    | listen fd' => exact hs
    | client fd' =>
        have hfd : fd' ≠ fd := fun heq => hne (congrArg Target.client heq)
        split
        · exact (update_of_ne hfd false isOpen).trans hs
        · exact hs
  · rw [if_neg hres, if_neg (by omega)]
    refine ⟨List.nodup_singleton _, ?_, ?_, fun s hs _ => hs⟩
    · intro s hs
      rw [List.mem_singleton.mp hs]
      exact hopen
    · intro s hs
      exact .inl (List.mem_singleton.mp hs)

theorem rest_client {isOpen : Int → Bool} {fd : Int} (hopen : isOpen fd = true) (res : Int) :
    (∀ t, Due listenFd
        (if res = 0 ∨ (res < 0 ∧ fd > 0) then update isOpen fd false else isOpen) t →
      t ∈ (if res ≤ 0 then [] else [Target.client fd]) ∨
        (Due listenFd isOpen t ∧ t ≠ .client fd)) ↔ ¬ (res < 0 ∧ ¬ fd > 0) := by
  by_cases hclosed : res = 0 ∨ (res < 0 ∧ fd > 0)
  · -- the connection is not due any more
    rw [if_pos hclosed]
    apply iff_of_true
    · intro t ht
      right
      cases t with
      | listen fd' => exact ⟨ht, nofun⟩
      | client fd' =>
          have hfd : fd' ≠ fd := by
            rintro rfl
            rw [Due, update_self] at ht
            cases ht
          rw [Due, update_of_ne hfd] at ht
          exact ⟨ht, fun heq => hfd (Target.client.inj heq)⟩
    · omega
  · rw [if_neg hclosed]
    by_cases hres : res ≤ 0
    · -- an error on 0
      rw [if_pos hres]
      apply iff_of_false
      · intro hall
        rcases hall (.client fd) hopen with hmem | ⟨-, hne⟩
        · cases hmem
        · exact hne rfl
      · omega
    · rw [if_neg hres]
      apply iff_of_true
      · intro t ht
        by_cases heq : t = .client fd
        · exact .inl (List.mem_singleton.mpr heq)
        · exact .inr ⟨ht, heq⟩
      · omega

/-- An `accept` completes: the next one is asked for, and a `recv` on the connection, unless
it failed. -/
theorem turn_accept {isOpen : Int → Bool} {res : Int} (hfresh : 0 ≤ res → isOpen res = false) :
    Turn (Due listenFd isOpen)
      (Due listenFd (if 0 ≤ res then update isOpen res true else isOpen)) (.listen listenFd)
      (if res < 0 then [] else [.listen listenFd, .client res]) := by
  by_cases hres : res < 0
  · rw [if_pos hres, if_neg (Int.not_le.mpr hres)]
    exact ⟨List.nodup_nil, nofun, nofun, fun s hs _ => hs⟩
  · have hle := Int.not_lt.mp hres
    rw [if_neg hres, if_pos hle]
    refine ⟨?_, ?_, ?_, ?_⟩
    · exact List.nodup_cons.mpr ⟨by simp, List.nodup_singleton _⟩
    · intro s hs
      rcases List.mem_pair.mp hs with rfl | rfl
      · rfl
      · exact update_self _ _ _
    · intro s hs
      rcases List.mem_pair.mp hs with rfl | rfl
      · exact .inl rfl
      · right
        rw [Due, hfresh hle]
        exact Bool.false_ne_true
    · intro s hs _
      cases s with
      | listen fd => exact hs
      | client fd =>
          by_cases hfd : fd = res
          · rw [Due, hfd, update_self]
          · rw [Due, update_of_ne hfd]
            exact hs

theorem rest_accept {isOpen : Int → Bool} {res : Int} :
    (∀ t, Due listenFd (if 0 ≤ res then update isOpen res true else isOpen) t →
      t ∈ (if res < 0 then [] else [Target.listen listenFd, .client res]) ∨
        (Due listenFd isOpen t ∧ t ≠ .listen listenFd)) ↔ ¬ res < 0 := by
  by_cases hres : res < 0
  · rw [if_pos hres, if_neg (Int.not_le.mpr hres)]
    apply iff_of_false
    · intro hall
      rcases hall (.listen listenFd) rfl with hmem | ⟨-, hne⟩
      · cases hmem
      · exact hne rfl
    · exact fun hnot => hnot hres
  · rw [if_neg hres, if_pos (Int.not_lt.mp hres)]
    apply iff_of_true
    · intro t ht
      cases t with
      | listen fd =>
          rw [Due] at ht
          rw [ht]
          exact .inl List.mem_cons_self
      | client fd =>
          by_cases hfd : fd = res
          · rw [hfd]
            exact .inl (List.mem_pair.mpr (.inr rfl))
          · rw [Due, update_of_ne hfd] at ht
            exact .inr ⟨ht, nofun⟩
    · exact hres

/-- A completion on a target that is due is a turn. -/
theorem wanted_turn (hdue : Due listenFd σ.isOpen c.sqe.target) (hl : c.Legal σ) :
    Turn (Due listenFd σ.isOpen) (Due listenFd (c.isOpen σ.isOpen)) c.sqe.target
      (c.wanted listenFd) := by
  have hlegal := hl.2
  rw [Sqe.target] at hdue
  rw [Completion.wanted, Completion.isOpen, Sqe.target]
  cases hop : c.sqe.op with
  | accept fd =>
      rw [hop] at hdue hlegal
      rw [Op.target, show fd = listenFd from hdue]
      exact turn_accept hlegal
  | recv fd buffer len | send fd buffer len =>
      rw [hop] at hdue
      exact turn_client hdue c.res

/-- What becomes due or stays so is wanted, but for what is forgotten. -/
theorem wanted_rest (hdue : Due listenFd σ.isOpen c.sqe.target) :
    (∀ t, Due listenFd (c.isOpen σ.isOpen) t →
      t ∈ c.wanted listenFd ∨ (Due listenFd σ.isOpen t ∧ t ≠ c.sqe.target)) ↔
        ¬ c.Forgotten := by
  rw [Sqe.target] at hdue
  rw [Completion.wanted, Completion.isOpen, Sqe.target, Completion.Forgotten]
  cases hop : c.sqe.op with
  | accept fd =>
      rw [hop] at hdue
      rw [Op.target, show fd = listenFd from hdue]
      exact rest_accept.trans (not_congr (and_iff_left trivial).symm)
  | recv fd buffer len | send fd buffer len =>
      rw [hop] at hdue
      exact rest_client hdue c.res

theorem Orderly.due (i : Orderly listenFd σ) (hl : c.Legal σ) :
    Due listenFd σ.isOpen c.sqe.target := by
  apply i.tidy.due
  exact List.mem_map_of_mem (List.mem_append_left σ.sq hl.1)

/-- All stays in order behind a completion. -/
theorem Handled.orderly (i : Orderly listenFd σ) (hl : c.Legal σ)
    (r : Handled listenFd σ τ c.sqe (c.wanted listenFd) (c.isOpen σ.isOpen)) :
    Orderly listenFd τ := by
  obtain ⟨rest, hperm, htargets⟩ := r.targets
  refine ⟨r.owned, ?_, ?_, ?_⟩
  · rw [r.queued]
    exact Nat.min_le_left _ _
  · rw [htargets, r.isOpen]
    exact (wanted_turn (i.due hl) hl).tidy (i.tidy.perm hperm) _
  · intro hflag
    rcases r.flagged with hset | ⟨hsame, hsq⟩
    · rw [hset] at hflag
      cases hflag
    · rw [hsq]
      exact i.flagged (hsame.symm.trans hflag)

/-- Nothing is left out behind a completion exactly if nothing was before it, nothing is
forgotten and there are entries for what it asks for. -/
theorem Handled.complete_iff (i : Orderly listenFd σ) (hl : c.Legal σ)
    (r : Handled listenFd σ τ c.sqe (c.wanted listenFd) (c.isOpen σ.isOpen)) :
    Complete listenFd τ ↔ Complete listenFd σ ∧
      σ.sq.length + (c.wanted listenFd).length ≤ sqEntries ∧ ¬ c.Forgotten := by
  obtain ⟨rest, hperm, htargets⟩ := r.targets
  have hturn := wanted_turn (i.due hl) hl
  have hroom : (c.wanted listenFd).length ≤ sqEntries - σ.sq.length ↔
      σ.sq.length + (c.wanted listenFd).length ≤ sqEntries := by
    have hqueued := i.queued
    omega
  rw [Complete, htargets, r.isOpen, hturn.covers_iff (i.tidy.perm hperm), hroom,
    wanted_rest (i.due hl), Complete, covers_perm hperm]

/-! ## A batch -/

theorem requested_cons (c : Completion) (cs : List Completion) :
    requested listenFd (c :: cs) = (c.wanted listenFd).length + requested listenFd cs := by
  rw [requested, List.flatMap_cons, List.length_append, requested]

/-- A batch in which every text ends is handled to its end, and all is in order there.
Nothing is left out exactly if nothing was before it, nothing is forgotten and there are
entries for what the batch asks for. -/
theorem forEachCqe_orderly {batch : List Completion} :
    ∀ {σ : Server}, Orderly listenFd σ → LegalBatch listenFd σ batch →
      (∀ c ∈ batch, ¬ c.Unterminated) →
      ∃ τ, forEachCqe listenFd σ batch = some τ ∧ Orderly listenFd τ ∧
        (Complete listenFd τ ↔ Complete listenFd σ ∧
          σ.sq.length + requested listenFd batch ≤ sqEntries ∧
          ∀ c ∈ batch, ¬ c.Forgotten) := by
  induction batch with
  | nil =>
      intro σ i _ _
      refine ⟨σ, rfl, i, ?_⟩
      have hempty : σ.sq.length + requested listenFd [] ≤ sqEntries := i.queued
      simp only [hempty, List.not_mem_nil, false_implies, implies_true, and_true]
  | cons c cs ih =>
      intro σ i hl hends
      obtain ⟨hc, hcs⟩ := hl
      obtain ⟨τ, hrun, r⟩ :=
        (completed_eq i.owned i.queued hc).2 (hends c List.mem_cons_self)
      obtain ⟨υ, hrest, hυ, hiff⟩ := ih (r.orderly i hc) (hcs τ hrun)
        (fun d hd => hends d (List.mem_cons_of_mem c hd))
      refine ⟨υ, ?_, hυ, ?_⟩
      · simp only [forEachCqe, hrun, hrest, Option.bind_eq_bind, Option.bind_some]
      · have hqueued := r.queued
        rw [hiff, r.complete_iff i hc, requested_cons, List.forall_mem_cons]
        -- as long as nothing was dropped the queue has all that was asked for
        constructor
        · rintro ⟨⟨hσ, hroom, hc'⟩, hrest', hcs'⟩
          exact ⟨hσ, by omega, hc', hcs'⟩
        · rintro ⟨hσ, hroom, hc', hcs'⟩
          exact ⟨⟨hσ, by omega, hc'⟩, by omega, hcs'⟩

/-- A batch with text that does not end is undefined. -/
theorem forEachCqe_unterminated {batch : List Completion} :
    ∀ {σ : Server}, Orderly listenFd σ → LegalBatch listenFd σ batch →
      (∃ c ∈ batch, c.Unterminated) → forEachCqe listenFd σ batch = none := by
  induction batch with
  | nil =>
      rintro σ _ _ ⟨c, hc, -⟩
      cases hc
  | cons c cs ih =>
      rintro σ i ⟨hc, hcs⟩ ⟨d, hd, hnot⟩
      have hspec := completed_eq i.owned i.queued hc
      by_cases hfirst : c.Unterminated
      · simp only [forEachCqe, hspec.1 hfirst, Option.bind_eq_bind, Option.bind_none]
      · -- the batch goes on to the one that is not terminated
        obtain ⟨τ, hrun, r⟩ := hspec.2 hfirst
        have hlater : d ∈ cs := by
          rcases List.mem_cons.mp hd with rfl | hlater
          · exact absurd hnot hfirst
          · exact hlater
        have hnone := ih (r.orderly i hc) (hcs τ hrun) ⟨d, hlater, hnot⟩
        simp only [forEachCqe, hrun, hnone, Option.bind_eq_bind, Option.bind_some]

/-! ## Turns of the loop -/

/-- Between the turns the queue is empty and all is in order. -/
structure Settled (listenFd : Int) (σ : Server) : Prop where
  orderly : Orderly listenFd σ
  submitted : σ.sq = []

/-- What is outstanding between the turns is what the claim says, if nothing is left out. -/
theorem Settled.outstanding_iff (s : Settled listenFd σ) :
    Outstanding listenFd σ ↔ Complete listenFd σ := by
  have hinflight : σ.outstanding = σ.inflight := by
    rw [Server.outstanding, s.submitted, List.append_nil]
  have i := s.orderly
  have howned := i.owned
  have htidy := i.tidy
  rw [Complete]
  rw [hinflight] at howned htidy ⊢
  constructor
  · intro h t ht
    apply List.count_pos_iff.mp
    cases t with
    | listen fd =>
        rw [show fd = listenFd from ht, h.accept]
        exact Nat.one_pos
    | client fd =>
        rw [h.clients fd ht]
        exact Nat.one_pos
  · intro h
    refine ⟨htidy.count_eq_one h rfl, fun fd hfd => htidy.count_eq_one h hfd, ?_,
      howned.distinct⟩
    intro p
    rw [howned.live p, or_iff_left (Option.some_ne_none p).symm]

/-- The rest of the loop submits what is queued. -/
theorem Orderly.settled (i : Orderly listenFd σ) :
    Settled listenFd (if σ.needSubmit then σ.submit else σ) ∧
      (Complete listenFd (if σ.needSubmit then σ.submit else σ) ↔ Complete listenFd σ) := by
  have hsame : σ.submit.outstanding = σ.outstanding := List.append_nil _
  cases hflag : σ.needSubmit with
  | true =>
      rw [if_pos rfl, Complete, Complete, hsame]
      refine ⟨⟨⟨?_, Nat.zero_le _, ?_, fun _ => rfl⟩, rfl⟩, Iff.rfl⟩
      · rw [hsame]
        exact i.owned
      · rw [hsame]
        exact i.tidy
  | false =>
      rw [if_neg Bool.false_ne_true]
      exact ⟨⟨i, i.flagged hflag⟩, Iff.rfl⟩

theorem Settled.begin (s : Settled listenFd σ) :
    Orderly listenFd σ.beginTurn :=
  ⟨s.orderly.owned, s.orderly.queued, s.orderly.tidy, fun _ => s.submitted⟩

/-- A turn of the loop. -/
theorem turn_settled (s : Settled listenFd σ) (h : Complete listenFd σ) {batch : List Completion}
    (hl : LegalBatch listenFd σ.beginTurn batch)
    (hends : ∀ c ∈ batch, ¬ c.Unterminated) :
    ∃ τ, σ.turn listenFd batch = some τ ∧ Settled listenFd τ ∧
      (Complete listenFd τ ↔
        requested listenFd batch ≤ sqEntries ∧ ∀ c ∈ batch, ¬ c.Forgotten) := by
  obtain ⟨τ, hrun, i, hiff⟩ := forEachCqe_orderly s.begin hl hends
  obtain ⟨hsettled, hcomplete⟩ := i.settled
  have hempty : σ.beginTurn.sq.length = 0 := by
    rw [Server.beginTurn, s.submitted, List.length_nil]
  refine ⟨_, ?_, hsettled, ?_⟩
  · simp only [Server.turn, hrun, Option.bind_eq_bind, Option.bind_some, Option.pure_def]
  · rw [hcomplete, hiff, hempty, Nat.zero_add]
    exact and_iff_right h

/-- A turn keeps the operations outstanding exactly if its batch is sound. -/
theorem keeps_iff (s : Settled listenFd σ) (h : Complete listenFd σ) {batch : List Completion}
    (hl : LegalBatch listenFd σ.beginTurn batch) :
    KeepsOutstanding listenFd σ batch ↔ SoundBatch listenFd batch := by
  by_cases hends : ∀ c ∈ batch, ¬ c.Unterminated
  · obtain ⟨τ, hturn, hτ, hiff⟩ := turn_settled s h hl hends
    constructor
    · rintro ⟨τ', hturn', hout⟩
      rw [hturn, Option.some_inj] at hturn'
      subst hturn'
      obtain ⟨hroom, hkept⟩ := hiff.mp (hτ.outstanding_iff.mp hout)
      exact ⟨hkept, hends, hroom⟩
    · rintro ⟨hkept, -, hroom⟩
      exact ⟨τ, hturn, hτ.outstanding_iff.mpr (hiff.mpr ⟨hroom, hkept⟩)⟩
  · apply iff_of_false
    · rintro ⟨τ, hturn, -⟩
      simp only [not_forall, not_not] at hends
      obtain ⟨c, hc, hnot⟩ := hends
      have hnone := forEachCqe_unterminated s.begin hl ⟨c, hc, hnot⟩
      simp only [Server.turn, hnone, Option.bind_eq_bind, Option.bind_none, reduceCtorEq] at hturn
    · intro hsound
      exact hends hsound.terminated

/-! ## Runs -/

/-- The server starts with one `accept` under way. -/
theorem start_settled (listenFd : Int) :
    Settled listenFd (.start listenFd) ∧ Complete listenFd (.start listenFd) := by
  have howned : Owned listenFd Server.new.contexts [] none :=
    ⟨nofun, List.nodup_nil, fun p => ⟨fun hne => absurd rfl hne, nofun⟩, nofun⟩
  have halloc : Owned listenFd (Server.start listenFd).contexts [⟨.accept listenFd, 1⟩] none :=
    howned.alloc rfl ⟨rfl, rfl, rfl⟩
  refine ⟨⟨⟨halloc, Nat.zero_le _, ⟨List.nodup_singleton _, ?_⟩, fun _ => rfl⟩, rfl⟩, ?_⟩
  · intro t ht
    rw [List.mem_singleton.mp ht]
    rfl
  · intro t ht
    cases t with
    | listen fd =>
        rw [show fd = listenFd from ht]
        exact List.mem_singleton.mpr rfl
    | client fd => cases ht

/-- One step of a run of sound batches. -/
theorem soundTurns_settled (listenFd : Int) :
    (soundTurns listenFd).Inductive fun σ => Settled listenFd σ ∧ Complete listenFd σ where
  init := by
    rintro σ rfl
    exact start_settled listenFd
  step := by
    rintro σ batch τ ⟨s, h⟩ ⟨hl, hsound, hturn⟩
    obtain ⟨τ', hturn', hτ, hiff⟩ := turn_settled s h hl hsound.terminated
    rw [hturn, Option.some_inj] at hturn'
    subst hturn'
    exact ⟨hτ, hiff.mpr ⟨hsound.room, hsound.remembered⟩⟩

/-- **Outstanding operations.** In every run of sound batches one `accept` is under way on
the listening socket and one `recv` or `send` on each open connection, and the contexts are
those of the operations. The next batch keeps it so exactly if it is sound. -/
theorem soundTurns_outstanding (hσ : (soundTurns listenFd).Reachable σ) :
    Outstanding listenFd σ ∧ ∀ batch, LegalBatch listenFd σ.beginTurn batch →
      (KeepsOutstanding listenFd σ batch ↔ SoundBatch listenFd batch) := by
  obtain ⟨s, h⟩ := (soundTurns_settled listenFd).invariant σ hσ
  exact ⟨s.outstanding_iff.mpr h, fun batch hl => keeps_iff s h hl⟩

/-- A connection is accepted on the listening socket 3. -/
def oneAccepted : List Completion := [{ sqe := ⟨.accept 3, 1⟩, res := 4 }]

/-- The server behind it, which waits for the next connection and for bytes on 4. -/
def oneClient : Server := (Server.turn 3 (.start 3) oneAccepted).get rfl

theorem oneClient_reachable : (soundTurns 3).Reachable oneClient := by
  apply TSys.Reachable.step (e := oneAccepted) (.init rfl)
  refine ⟨⟨⟨List.mem_singleton.mpr rfl, fun _ => rfl⟩, fun _ _ => trivial⟩, ⟨?_, ?_, ?_⟩, rfl⟩
  · intro c hc
    rw [List.mem_singleton.mp hc]
    rintro ⟨hneg, -⟩
    exact absurd hneg (by decide)
  · intro c hc
    rw [List.mem_singleton.mp hc]
    exact id
  · decide

theorem soundTurns_outstanding_one :
    Outstanding 3 oneClient ∧ ∀ batch, LegalBatch 3 oneClient.beginTurn batch →
      (KeepsOutstanding 3 oneClient batch ↔ SoundBatch 3 batch) :=
  soundTurns_outstanding oneClient_reachable

/-- An `accept` fails with `EMFILE`. -/
def acceptFailed : List Completion := [{ sqe := ⟨.accept 3, 1⟩, res := -24 }]

/-- Behind it no `accept` is under way any more. -/
theorem accept_forgotten :
    (turns 3).Reachable (.start 3) ∧ LegalBatch 3 (Server.start 3).beginTurn acceptFailed ∧
      ¬ KeepsOutstanding 3 (.start 3) acceptFailed := by
  refine ⟨.init rfl, ⟨⟨List.mem_singleton.mpr rfl, nofun⟩, fun _ _ => trivial⟩, ?_⟩
  rintro ⟨σ', hturn, hout⟩
  cases hturn
  exact absurd hout.accept (by decide)

end LearnSpace.IoURingServer
