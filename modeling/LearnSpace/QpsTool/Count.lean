import Mathlib.Data.List.Count
import LearnSpace.QpsTool.Contexts

/-!
# What the QPS tool counts

A `recv` that answers 0 has found the end of the stream. The tool takes it for an answer: it is
counted, and the next request is sent. So `finishedCount` is the number of `recv`s that did not
fail, which is at most that of the `send`s, and it is the number of answers as long as no server
has closed a connection (`counted_iff`).
-/

namespace LearnSpace.QpsTool

open Keel Function

/-! ## Histories -/

/-- What is remembered of a run: the completions that were handled and the operations that were
prepared. -/
inductive Mark
  | handled (c : Completion)
  | asked (e : Sqe)

namespace Mark

/-- A `recv` has delivered bytes. -/
def delivered : Mark → Bool
  | handled c => c.sqe.op.type = .RECV ∧ 0 < c.res
  | asked _ => false

/-- A `recv` has found that the server closed the connection. -/
def closed : Mark → Bool
  | handled c => c.sqe.op.type = .RECV ∧ c.res = 0
  | asked _ => false

/-- A `send` has completed. -/
def sent : Mark → Bool
  | handled c => c.sqe.op.type = .SEND ∧ 0 ≤ c.res
  | asked _ => false

end Mark

/-- What a step adds: the completion it handles, and behind it what it prepares. -/
def Tool.marks (σ : Tool) (e : Event) (τ : Tool) : List Mark :=
  (match e, σ.place with
    | .cqe, .batch (c :: _) => [.handled c]
    | _, _ => []) ++ (τ.sq.drop σ.sq.length).map .asked

/-- The runs with their histories. -/
def counted (config : Config) (room : Nat → Bool) : TSys (Tool × List Mark) Event where
  init s := s = (.new config, [])
  step s e s' := Next config room s.1 e s'.1 ∧ s'.2 = s.2 ++ s.1.marks e s'.1

/-- Only answers are counted, no more than there were requests, and a connection that the server
has closed is not sent to any more. -/
structure OnlyAnswered (s : Tool × List Mark) : Prop where
  answered : s.1.finishedCount ≤ (s.2.countP Mark.delivered : Nat)
  requested : s.1.finishedCount ≤ (s.2.countP Mark.sent : Nat)
  silent : ∀ c earlier later, s.2 = earlier ++ .handled c :: later → (Mark.handled c).closed →
    ∀ e, .asked e ∈ later → e.fd = c.sqe.fd → e.op.type ≠ .SEND

/-! ## What a completion does -/

variable {config : Config} {room : Nat → Bool} {σ τ : Tool} {c : Completion} {fd : Int}
  {write : EventContext → EventContext} {prep : Nat → Op}

def Sqe.isRecv (e : Sqe) : Bool := e.op.type = .RECV

/-- Nothing has changed but the contexts, the count, and that operations were prepared. -/
structure Prepared (σ τ : Tool) (new : List Sqe) : Prop where
  sq : τ.sq = σ.sq ++ new
  inflight : τ.inflight = σ.inflight
  place : τ.place = σ.place

theorem Prepared.outstanding {new : List Sqe} (r : Prepared σ τ new) :
    τ.outstanding = σ.outstanding ++ new := by
  simp only [Tool.outstanding, r.sq, r.inflight, r.place, List.append_assoc]

theorem ask_prepared (h : σ.ask room write prep = some τ) :
    τ.finishedCount = σ.finishedCount ∧
      ∃ new, Prepared σ τ new ∧ new.length ≤ 1 ∧ ∀ e ∈ new, ∃ q, e.op = prep q := by
  unfold Tool.ask at h
  cases hget : σ.getEventContext with
  | mk context υ =>
      rw [hget] at h
      dsimp only at h
      have hυ : υ.finishedCount = σ.finishedCount ∧ Prepared σ υ [] := by
        cases context with
        | none =>
            rw [getEventContext_none hget]
            exact ⟨rfl, (List.append_nil _).symm, rfl, rfl⟩
        | some q =>
            rw [(getEventContext_some hget).1]
            exact ⟨rfl, (List.append_nil _).symm, rfl, rfl⟩
      by_cases hroom : room υ.sq.length = true
      · cases context with
        | none =>
            rw [Tool.setEvent, if_pos hroom] at h
            cases h
        | some q =>
            rw [setEvent_some hroom] at h
            cases h
            refine ⟨hυ.1, [⟨prep q, q⟩], ⟨?_, hυ.2.inflight, hυ.2.place⟩, Nat.le_refl 1, ?_⟩
            · show υ.sq ++ _ = _
              rw [hυ.2.sq, List.append_nil]
            · intro e he
              rw [List.mem_singleton.mp he]
              exact ⟨q, rfl⟩
      · rw [Tool.setEvent, if_neg hroom] at h
        cases h
        exact ⟨hυ.1, [], hυ.2, Nat.zero_le 1, fun e he => absurd he List.not_mem_nil⟩

theorem putEventContext_prepared {p : Nat} (h : σ.putEventContext p = some τ) :
    τ.finishedCount = σ.finishedCount ∧ Prepared σ τ [] := by
  unfold Tool.putEventContext at h
  dsimp only at h
  split at h
  · cases h
    exact ⟨rfl, (List.append_nil _).symm, rfl, rfl⟩
  · cases h

/-- No `recv` is among operations that are not. -/
theorem countP_isRecv_eq_zero {new : List Sqe} (hnew : ∀ e ∈ new, ∃ q, e.op = prep q)
    (hprep : ∀ q, (prep q).type ≠ .RECV) : new.countP Sqe.isRecv = 0 := by
  rw [List.countP_eq_zero]
  intro e he
  obtain ⟨q, hq⟩ := hnew e he
  simp [Sqe.isRecv, hq, hprep q]

/-- The switch counts a `recv`, and only a `send` makes it ask for one. -/
theorem dispatch_prepared {context : EventContext}
    (h : σ.dispatch config room context = some τ) :
    τ.finishedCount = σ.finishedCount + (if context.type = .RECV then 1 else 0 : Nat) ∧
      ∃ new, Prepared σ τ new ∧
        new.countP Sqe.isRecv ≤ if context.type = .SEND then 1 else 0 := by
  unfold Tool.dispatch at h
  cases htype : context.type with
  | UNDEF | ACCEPT =>
      rw [htype] at h
      cases h
      exact ⟨(Int.add_zero _).symm, [], ⟨(List.append_nil _).symm, rfl, rfl⟩, Nat.zero_le _⟩
  | CONNECT =>
      rw [htype] at h
      obtain ⟨hcount, new, r, -, hnew⟩ := ask_prepared h
      exact ⟨hcount.trans (Int.add_zero _).symm, new, r,
        Nat.le_of_eq (countP_isRecv_eq_zero hnew fun _ => nofun)⟩
  | RECV =>
      rw [htype] at h
      dsimp only at h
      split at h
      · obtain ⟨hcount, new, r, -, hnew⟩ := ask_prepared h
        exact ⟨hcount, new, ⟨r.sq, r.inflight, r.place⟩,
          Nat.le_of_eq (countP_isRecv_eq_zero hnew fun _ => nofun)⟩
      · cases h
  | SEND =>
      rw [htype] at h
      obtain ⟨hcount, new, r, hone, -⟩ := ask_prepared h
      exact ⟨hcount.trans (Int.add_zero _).symm, new, r, List.countP_le_length.trans hone⟩

/-- A completion that is no error is dispatched. -/
theorem handle_prepared (h : σ.handle config room c = some τ) :
    τ.finishedCount = σ.finishedCount +
        (if 0 ≤ c.res ∧ (σ.contexts c.sqe.userData).type = .RECV then 1 else 0 : Nat) ∧
      ∃ new, Prepared σ τ new ∧ new.countP Sqe.isRecv ≤
        if 0 ≤ c.res ∧ (σ.contexts c.sqe.userData).type = .SEND then 1 else 0 := by
  unfold Tool.handle at h
  by_cases hres : c.res < 0
  · have hneg : ¬ 0 ≤ c.res := Int.not_le.mpr hres
    rw [if_pos hres] at h
    obtain ⟨hcount, r⟩ := putEventContext_prepared h
    simp only [hneg, false_and, if_false]
    exact ⟨hcount.trans (Int.add_zero _).symm, [], r, Nat.zero_le _⟩
  · rw [if_neg hres] at h
    obtain ⟨υ, hdispatch, hput⟩ := Option.bind_eq_some_iff.mp h
    obtain ⟨hcount, new, r, hnew⟩ := dispatch_prepared hdispatch
    obtain ⟨hsame, r'⟩ := putEventContext_prepared hput
    simp only [Int.not_lt.mp hres, true_and]
    refine ⟨hsame.trans hcount, new, ⟨?_, r'.inflight.trans r.inflight, r'.place.trans r.place⟩,
      hnew⟩
    rw [r'.sq, r.sq, List.append_nil]

theorem setConnectEvent_prepared (σ : Tool) (room : Nat → Bool) (fd : Int) :
    (σ.setConnectEvent room fd).finishedCount = σ.finishedCount ∧
      ∃ new, Prepared σ (σ.setConnectEvent room fd) new ∧ new.countP Sqe.isRecv = 0 := by
  unfold Tool.setConnectEvent Tool.getEventContext
  cases Slots.firstFree σ.poolElState with
  | none => exact ⟨rfl, [], ⟨(List.append_nil _).symm, rfl, rfl⟩, rfl⟩
  | some i =>
      dsimp only
      split
      · exact ⟨rfl, [⟨.connect fd, i⟩], ⟨rfl, rfl, rfl⟩, rfl⟩
      · exact ⟨rfl, [], ⟨(List.append_nil _).symm, rfl, rfl⟩, rfl⟩

/-! ## Runs -/

/-- What is counted is what has completed, and every `recv` is behind a `send`. -/
structure Tallied (config : Config) (s : Tool × List Mark) : Prop where
  sound : Sound config [] [] s.1
  counted : s.1.finishedCount = (s.2.countP Mark.delivered + s.2.countP Mark.closed : Nat)
  awaited : s.2.countP Mark.delivered + s.2.countP Mark.closed +
    s.1.outstanding.countP Sqe.isRecv ≤ s.2.countP Mark.sent

/-- What was prepared counts for nothing. -/
theorem countP_asked (p : Mark → Bool) (hp : ∀ e, p (.asked e) = false) (es : List Sqe) :
    (es.map Mark.asked).countP p = 0 := by
  rw [List.countP_eq_zero]
  intro m hm
  obtain ⟨e, -, heq⟩ := List.mem_map.mp hm
  rw [← heq, hp]
  exact Bool.false_ne_true

/-- A step that handles nothing. -/
theorem Tallied.quiet {s : Tool × List Mark} (t : Tallied config s)
    (i : Sound config [] [] τ) (hcount : τ.finishedCount = s.1.finishedCount)
    (hrecv : τ.outstanding.countP Sqe.isRecv = s.1.outstanding.countP Sqe.isRecv)
    (es : List Sqe) : Tallied config (τ, s.2 ++ es.map Mark.asked) := by
  have hmarks : ∀ p : Mark → Bool, (∀ e, p (.asked e) = false) →
      (s.2 ++ es.map Mark.asked).countP p = s.2.countP p := by
    intro p hp
    rw [List.countP_append, countP_asked p hp, Nat.add_zero]
  refine ⟨i, ?_, ?_⟩
  · rw [hmarks _ (fun _ => rfl), hmarks _ (fun _ => rfl)]
    exact hcount.trans t.counted
  · rw [hmarks _ (fun _ => rfl), hmarks _ (fun _ => rfl), hmarks _ (fun _ => rfl)]
    rw [hrecv]
    exact t.awaited

theorem marks_cqe {cs : List Completion} (hplace : σ.place = .batch (c :: cs)) :
    σ.marks .cqe τ = .handled c :: (τ.sq.drop σ.sq.length).map .asked := by
  unfold Tool.marks
  rw [hplace]
  rfl

/-- A completion is handled: one more is counted if it is a `recv`, which was awaited, and one more
may be awaited if it is a `send`. -/
theorem Tallied.handle {s : Tool × List Mark} {cs : List Completion} (t : Tallied config s)
    (i : Sound config [] [] τ) (hplace : s.1.place = .batch (c :: cs))
    (h : ({ s.1 with place := .batch cs } : Tool).handle config room c = some τ)
    (es : List Sqe) : Tallied config (τ, s.2 ++ .handled c :: es.map Mark.asked) := by
  have hperm := outstanding_batch hplace
  have htype := (t.sound.fits c.sqe (hperm.mem_iff.mpr List.mem_cons_self)).1
  obtain ⟨hcount, new, r, hnew⟩ := handle_prepared h
  dsimp only at hcount hnew
  rw [htype] at hcount hnew
  have hmarks : ∀ p : Mark → Bool, (∀ e, p (.asked e) = false) →
      (s.2 ++ .handled c :: es.map Mark.asked).countP p =
        s.2.countP p + if p (.handled c) then 1 else 0 := by
    intro p hp
    rw [List.countP_append, List.countP_cons, countP_asked p hp, Nat.zero_add]
  have hrecv : s.1.outstanding.countP Sqe.isRecv =
      ({ s.1 with place := .batch cs } : Tool).outstanding.countP Sqe.isRecv +
        if c.sqe.op.type = .RECV then 1 else 0 := by
    rw [hperm.countP_eq, List.countP_cons]
    simp [Sqe.isRecv]
  have hcounted := t.counted
  have hawaited := t.awaited
  -- what the completion adds to each count
  have hanswer : (if (Mark.handled c).delivered then 1 else 0) +
      (if (Mark.handled c).closed then 1 else 0) =
        if 0 ≤ c.res ∧ c.sqe.op.type = .RECV then 1 else 0 := by
    by_cases hop : c.sqe.op.type = .RECV
    · rcases Int.lt_trichotomy c.res 0 with hneg | hzero | hpos
      · simp [Mark.delivered, Mark.closed, hop, Int.not_le.mpr hneg, Int.ne_of_lt hneg,
          Int.lt_asymm hneg]
      · simp [Mark.delivered, Mark.closed, hop, hzero]
      · simp [Mark.delivered, Mark.closed, hop, hpos, Int.le_of_lt hpos, Int.ne_of_gt hpos]
    · simp [Mark.delivered, Mark.closed, hop]
  have hsent : (if (Mark.handled c).sent then 1 else 0) =
      if 0 ≤ c.res ∧ c.sqe.op.type = .SEND then 1 else 0 := by
    simp [Mark.sent, and_comm]
  have hle : (if 0 ≤ c.res ∧ c.sqe.op.type = .RECV then 1 else 0) ≤
      if c.sqe.op.type = .RECV then 1 else 0 := by
    by_cases hop : c.sqe.op.type = .RECV
    · simp only [hop, and_true, if_true]
      split <;> omega
    · simp [hop]
  refine ⟨i, ?_, ?_⟩
  · rw [hmarks _ (fun _ => rfl), hmarks _ (fun _ => rfl)]
    show τ.finishedCount = _
    omega
  · rw [hmarks _ (fun _ => rfl), hmarks _ (fun _ => rfl), hmarks _ (fun _ => rfl)]
    show _ + _ + τ.outstanding.countP Sqe.isRecv ≤ _
    rw [r.outstanding, List.countP_append, hsent]
    omega

theorem counted_tallied (config : Config) (room : Nat → Bool) :
    (counted config room).Inductive (Tallied config) where
  init := by
    intro s hs
    cases hs
    exact ⟨(new_sound config).1, rfl, Nat.le_refl 0⟩
  step := by
    intro s e s' t hstep
    obtain ⟨τ, history⟩ := s'
    obtain ⟨hnext, hhistory⟩ := hstep
    dsimp only at hnext hhistory
    have i := (runs_sound config room).step s.1 e τ t.sound hnext
    rw [hhistory]
    cases hnext with
    | socket fd hplace hmore =>
        obtain ⟨hcount, new, r, hnone⟩ := setConnectEvent_prepared s.1 room fd
        refine t.quiet i hcount ?_ _
        show (s.1.setConnectEvent room fd).outstanding.countP _ = _
        rw [r.outstanding, List.countP_append, hnone, Nat.add_zero]
    | start hplace hall =>
        exact t.quiet i rfl ((outstanding_submit s.1 (by rw [hplace]; rfl)).symm.countP_eq _) _
    | peek overTime batch rest hplace hgoes hsize hcompleted =>
        exact t.quiet i rfl ((outstanding_peek hplace hcompleted).symm.countP_eq _) _
    | cqe c cs hplace hhandle =>
        rw [marks_cqe hplace]
        exact t.handle i hplace hhandle _
    | turn hplace =>
        exact t.quiet i rfl ((outstanding_submit s.1 (by rw [hplace]; rfl)).symm.countP_eq _) _

theorem counted_next {history : List Mark} {e : Event}
    (hs : (counted config room).Reachable (σ, history)) (h : Next config room σ e τ) :
    (counted config room).Reachable (τ, history ++ σ.marks e τ) :=
  hs.step ⟨h, rfl⟩

/-- **What is counted.** At every moment of every run only answers have been counted, no more than
requests have completed, and no closed connection has been sent to, exactly when no server has
closed a connection so far. -/
theorem counted_iff {s : Tool × List Mark} (hs : (counted config room).Reachable s) :
    OnlyAnswered s ↔ ∀ m ∈ s.2, m.closed = false := by
  have t := (counted_tallied config room).invariant s hs
  have hcounted := t.counted
  have hawaited := t.awaited
  have hnone : s.2.countP Mark.closed = 0 ↔ ∀ m ∈ s.2, m.closed = false := by
    rw [List.countP_eq_zero]
    simp only [Bool.not_eq_true]
  rw [← hnone]
  constructor
  · intro h
    have hanswered := h.answered
    omega
  · intro hzero
    refine ⟨by omega, by omega, ?_⟩
    intro c earlier later heq hclosed
    have hmem : Mark.handled c ∈ s.2 := by
      rw [heq]
      exact List.mem_append_right earlier List.mem_cons_self
    rw [hnone.mp hzero _ hmem] at hclosed
    cases hclosed

/-- One client, for five seconds. -/
def oneClient : Config := { clSize := 1, mode := .Time, durationTime := 5 }

/-- The client is connected, its first request goes out and is answered. -/
theorem counted_iff_one :
    ∃ s, (counted oneClient (· < 1)).Reachable s ∧ s.2.length = 7 ∧ s.1.finishedCount = 1 ∧
      (OnlyAnswered s ↔ ∀ m ∈ s.2, m.closed = false) := by
  have hnew : (counted oneClient (· < 1)).Reachable (.new oneClient, []) := .init rfl
  have hconnect := counted_next (counted_next hnew (.socket 3 rfl Nat.zero_lt_one)) (.start rfl rfl)
  have hconnected := counted_next hconnect
    (.peek 0 [⟨⟨.connect 3, 0⟩, 0⟩] [] rfl rfl (by decide) (List.Perm.refl _))
  have hrequest := counted_next (counted_next hconnected (.cqe _ _ rfl rfl)) (.turn rfl)
  have hsent := counted_next hrequest
    (.peek 0 [⟨⟨.send 3 1 63, 1⟩, 63⟩] [] rfl rfl (by decide) (List.Perm.refl _))
  have hawaited := counted_next (counted_next hsent (.cqe _ _ rfl rfl)) (.turn rfl)
  have hcame := counted_next hawaited
    (.peek 0 [⟨⟨.recv 3 0 2048, 0⟩, 5⟩] [] rfl rfl (by decide) (List.Perm.refl _))
  have hanswered := counted_next hcame (.cqe _ _ rfl rfl)
  exact ⟨_, hanswered, rfl, rfl, counted_iff hanswered⟩

/-- The server closes the connection instead of an answer, and that is counted as one. -/
theorem counted_breaks :
    ∃ s, (counted oneClient (· < 1)).Reachable s ∧ ¬ OnlyAnswered s := by
  have hnew : (counted oneClient (· < 1)).Reachable (.new oneClient, []) := .init rfl
  have hconnect := counted_next (counted_next hnew (.socket 3 rfl Nat.zero_lt_one)) (.start rfl rfl)
  have hconnected := counted_next hconnect
    (.peek 0 [⟨⟨.connect 3, 0⟩, 0⟩] [] rfl rfl (by decide) (List.Perm.refl _))
  have hrequest := counted_next (counted_next hconnected (.cqe _ _ rfl rfl)) (.turn rfl)
  have hsent := counted_next hrequest
    (.peek 0 [⟨⟨.send 3 1 63, 1⟩, 63⟩] [] rfl rfl (by decide) (List.Perm.refl _))
  have hawaited := counted_next (counted_next hsent (.cqe _ _ rfl rfl)) (.turn rfl)
  have hclosed := counted_next hawaited
    (.peek 0 [⟨⟨.recv 3 0 2048, 0⟩, 0⟩] [] rfl rfl (by decide) (List.Perm.refl _))
  have hcounted := counted_next hclosed (.cqe _ _ rfl rfl)
  refine ⟨_, hcounted, ?_⟩
  intro h
  exact absurd h.answered (by decide +kernel)

end LearnSpace.QpsTool
