import LearnSpace.KvStore.Reactor

/-!
# The backlog of the listening socket

The listening socket is edge-triggered: it is reported once for whatever has
arrived since the last report. `doRun` accepts one connection for each report.
So the connections in the backlog and the reports that are due stay in step as
long as no report stands for two arrivals. Once they are out of step no later
report makes up for it.
-/

namespace LearnSpace.KvStore.Reactor

open Keel

/-- The listening socket is among the reports `doRun` has yet to come to. -/
def Pending (listenFD : Int) (r : Reactor) : Prop := listenFD ∈ r.ready.map (·.fd)

instance (listenFD : Int) (r : Reactor) : Decidable (r.Pending listenFD) :=
  inferInstanceAs (Decidable (_ ∈ _))

/-- How many reports of the listening socket will still be handled if nothing
more arrives. -/
def due (listenFD : Int) (r : Reactor) : Nat :=
  (if r.Pending listenFD then 1 else 0) + (if r.edge then 1 else 0)

/-- What the claim says of a state. -/
structure Drained (listenFD : Int) (r : Reactor) : Prop where
  /-- with the last report handled, what had arrived by then has been accepted -/
  accepted : ¬ r.Pending listenFD → ∀ connection ∈ r.backlog, r.reported ≤ connection
  /-- nothing waits in the backlog with no report to come -/
  stranded : r.backlog ≠ [] → 0 < r.due listenFD

/-- No two arrivals share a report, and `accept` does not fail on a connection
that is there. -/
def OneByOne (listenFD : Int) (r : Reactor) : ReactorEvent → Prop
  | .arrive => r.edge = false
  | .epollWait _ => True
  | .handle answers => ∀ event ∈ r.ready.head?, event.fd = listenFD →
      r.backlog ≠ [] → answers.accept ≠ none

variable {listenFD : Int} {r r' : Reactor} {e : ReactorEvent}

/-! ## The reports that are due -/

theorem due_arrive (listenFD : Int) (h : r.edge = false) :
    (r.next listenFD .arrive).due listenFD = r.due listenFD + 1 := by
  simp [due, Reactor.next, Pending, h]

theorem due_arrive_again (h : r.edge = true) :
    (r.next listenFD .arrive).due listenFD = r.due listenFD := by
  simp [due, Reactor.next, Pending, h]

/-- A report of the listening socket becomes pending when its edge is taken. -/
theorem due_epollWait {events : List EpollEvent}
    (h : r.Allowed listenFD (.epollWait events)) :
    (r.next listenFD (.epollWait events)).due listenFD = r.due listenFD := by
  obtain ⟨-, hready, -, -, hreport⟩ := h
  have hnot : ¬ r.Pending listenFD := by simp [Pending, hready]
  rw [Reactor.next]
  split
  · rename_i hmem
    have hedge : r.edge = true := by
      obtain ⟨event, hevent, hfd⟩ := List.mem_map.mp hmem
      have := hreport event hevent
      rwa [Reportable, if_pos hfd] at this
    have hpending : Pending listenFD
        { r with ready := events, edge := false, reported := r.arrived } := hmem
    simp only [due, hpending, hnot, hedge, if_true, if_false, Bool.false_eq_true]
  · rename_i hmem
    have hpending : ¬ Pending listenFD { r with ready := events } := hmem
    simp only [due, hpending, hnot, if_false]

theorem due_listen {event : EpollEvent} {rest : List EpollEvent}
    (hdistinct : (r.ready.map (·.fd)).Nodup) (hready : r.ready = event :: rest)
    (hfd : event.fd = listenFD) (answers : Answers) :
    r.due listenFD = (r.handle listenFD answers).due listenFD + 1 := by
  have hpending : r.Pending listenFD := by simp [Pending, hready, hfd]
  have hrest : listenFD ∉ rest.map (·.fd) := by
    rw [hready, List.map_cons, List.nodup_cons, hfd] at hdistinct
    exact hdistinct.1
  have hafter : ¬ (r.handle listenFD answers).Pending listenFD := by
    rw [handle_listen hready hfd]
    split <;> exact hrest
  have hedge : (r.handle listenFD answers).edge = r.edge := by
    rw [handle_listen hready hfd]
    split <;> rfl
  rw [due, due, if_pos hpending, if_neg hafter, hedge]
  omega

theorem pending_client {event : EpollEvent} {rest : List EpollEvent}
    (hready : r.ready = event :: rest) (hfd : event.fd ≠ listenFD) (answers : Answers) :
    (r.handle listenFD answers).Pending listenFD ↔ r.Pending listenFD := by
  rw [handle_client hready hfd]
  simp [Pending, hready, Ne.symm hfd]

theorem due_client {event : EpollEvent} {rest : List EpollEvent}
    (hready : r.ready = event :: rest) (hfd : event.fd ≠ listenFD) (answers : Answers) :
    (r.handle listenFD answers).due listenFD = r.due listenFD := by
  have hpending := pending_client hready hfd answers
  have hedge : (r.handle listenFD answers).edge = r.edge := by
    rw [handle_client hready hfd]
  simp only [due, hpending, hedge]

/-- The kernel names no descriptor twice in one report. -/
theorem distinct_next (h : (r.ready.map (·.fd)).Nodup) (hallowed : r.Allowed listenFD e) :
    ((r.next listenFD e).ready.map (·.fd)).Nodup := by
  cases e with
  | arrive => exact h
  | epollWait events =>
      rw [Reactor.next]
      split <;> exact hallowed.2.2.2.1
  | handle answers =>
      obtain ⟨event, rest, hready⟩ := List.exists_cons_of_ne_nil hallowed.2.1
      rw [hready] at h
      have hrest : (rest.map (·.fd)).Nodup := (List.nodup_cons.mp h).2
      rw [Reactor.next]
      by_cases hfd : event.fd = listenFD
      · rw [handle_listen hready hfd]
        split <;> exact hrest
      · rw [handle_client hready hfd]
        exact hrest

/-! ## In step -/

/-- The inductive invariant: as many connections wait as reports are due, and
they are the last that have arrived. -/
structure InStep (listenFD : Int) (r : Reactor) : Prop where
  distinct : (r.ready.map (·.fd)).Nodup
  fresh : r.arrived = r.reported + (if r.edge then 1 else 0)
  started : r.due listenFD ≤ r.arrived
  backlog : r.backlog = List.range' (r.arrived - r.due listenFD) (r.due listenFD)

theorem InStep.new : InStep listenFD new where
  distinct := List.nodup_nil
  fresh := rfl
  started := Nat.le_refl _
  backlog := rfl

theorem InStep.drained (h : InStep listenFD r) : Drained listenFD r where
  accepted hpending connection hmem := by
    rw [h.backlog, List.mem_range'_1] at hmem
    have hdue : r.due listenFD = if r.edge then 1 else 0 := by
      rw [due, if_neg hpending, Nat.zero_add]
    have := h.fresh
    omega
  stranded hne := by
    apply Nat.pos_of_ne_zero
    intro hdue
    rw [h.backlog, hdue] at hne
    exact hne rfl

/-- A connection comes, and its report. -/
theorem InStep.arrive (h : InStep listenFD r) (hedge : r.edge = false)
    (hdistinct : ((r.next listenFD .arrive).ready.map (·.fd)).Nodup) :
    InStep listenFD (r.next listenFD .arrive) := by
  have hstarted := h.started
  have hfresh := h.fresh
  rw [hedge] at hfresh
  have hdue := due_arrive listenFD hedge
  refine ⟨hdistinct, ?_, ?_, ?_⟩
  · simp [Reactor.next] at hfresh ⊢
    exact hfresh
  · rw [hdue]
    exact Nat.succ_le_succ hstarted
  · rw [hdue]
    show r.backlog ++ [r.arrived] = List.range' (r.arrived + 1 - (_ + 1)) _
    have hlast : r.arrived = r.arrived - r.due listenFD + r.due listenFD := by omega
    rw [h.backlog, Nat.add_sub_add_right, List.range'_1_concat, ← hlast]

/-- The listener is reported with a connection that waits, and that is accepted. -/
theorem InStep.accept (h : InStep listenFD r) {event : EpollEvent} {rest : List EpollEvent}
    (hready : r.ready = event :: rest) (hfd : event.fd = listenFD) (answers : Answers)
    (hok : r.OneByOne listenFD (.handle answers))
    (hdistinct : ((r.next listenFD (.handle answers)).ready.map (·.fd)).Nodup) :
    InStep listenFD (r.next listenFD (.handle answers)) := by
  have hstarted := h.started
  have hfresh := h.fresh
  have hdue := due_listen h.distinct hready hfd answers
  have hne : r.backlog ≠ [] := by
    rw [h.backlog, hdue]
    simp
  cases haccept : answers.accept with
  | none => exact absurd haccept (hok event (by rw [hready]; rfl) hfd hne)
  | some clFd =>
      rw [Reactor.next] at hdistinct ⊢
      have heq := handle_listen hready hfd answers
      rw [haccept] at heq
      refine ⟨hdistinct, by rw [heq]; exact hfresh, ?_, ?_⟩
      · rw [heq]
        show Reactor.due _ _ ≤ r.arrived
        rw [← heq]
        omega
      · have htail : (r.handle listenFD answers).backlog = r.backlog.tail := by
          rw [heq]
        have harrived : (r.handle listenFD answers).arrived = r.arrived := by
          rw [heq]
        rw [htail, harrived, h.backlog, hdue, List.range'_succ, List.tail_cons]
        congr 1
        omega

theorem InStep.next (h : InStep listenFD r) (hok : r.OneByOne listenFD e)
    (hallowed : r.Allowed listenFD e) : InStep listenFD (r.next listenFD e) := by
  have hdistinct := distinct_next h.distinct hallowed
  have hstarted := h.started
  have hfresh := h.fresh
  cases e with
  | arrive => exact h.arrive hok hdistinct
  | epollWait events =>
      have hdue := due_epollWait hallowed
      have hsame : (r.next listenFD (.epollWait events)).arrived = r.arrived ∧
          (r.next listenFD (.epollWait events)).backlog = r.backlog := by
        rw [Reactor.next]
        split <;> exact ⟨rfl, rfl⟩
      refine ⟨hdistinct, ?_, ?_, ?_⟩
      · rw [Reactor.next]
        split
        · rfl
        · exact hfresh
      · rw [hdue, hsame.1]
        exact hstarted
      · rw [hdue, hsame.1, hsame.2, h.backlog]
  | handle answers =>
      obtain ⟨event, rest, hready⟩ := List.exists_cons_of_ne_nil hallowed.2.1
      by_cases hfd : event.fd = listenFD
      · exact h.accept hready hfd answers hok hdistinct
      · have hdue := due_client hready hfd answers
        rw [Reactor.next] at hdistinct ⊢
        have heq := handle_client hready hfd answers
        refine ⟨hdistinct, by rw [heq]; exact hfresh, ?_, ?_⟩
        · rw [hdue, heq]
          exact hstarted
        · rw [hdue, heq]
          exact h.backlog

/-! ## Out of step -/

/-- More connections wait than reports are due. -/
structure Behind (listenFD : Int) (r : Reactor) : Prop where
  distinct : (r.ready.map (·.fd)).Nodup
  backlog : r.due listenFD < r.backlog.length

/-- No event makes up for a connection that is left behind. -/
theorem Behind.next (h : Behind listenFD r) (hallowed : r.Allowed listenFD e) :
    Behind listenFD (r.next listenFD e) := by
  refine ⟨distinct_next h.distinct hallowed, ?_⟩
  have hbacklog := h.backlog
  cases e with
  | arrive =>
      have hlength : (r.next listenFD .arrive).backlog.length = r.backlog.length + 1 :=
        List.length_append
      rw [hlength]
      cases hedge : r.edge with
      | false =>
          rw [due_arrive listenFD hedge]
          omega
      | true =>
          rw [due_arrive_again hedge]
          omega
  | epollWait events =>
      rw [due_epollWait hallowed, Reactor.next]
      split <;> exact hbacklog
  | handle answers =>
      obtain ⟨event, rest, hready⟩ := List.exists_cons_of_ne_nil hallowed.2.1
      rw [Reactor.next]
      by_cases hfd : event.fd = listenFD
      · have hdue := due_listen h.distinct hready hfd answers
        have hone : r.backlog.length ≤ (r.handle listenFD answers).backlog.length + 1 := by
          rw [handle_listen hready hfd]
          split
          · exact Nat.le_succ _
          · simp only [List.length_tail]
            omega
        omega
      · rw [due_client hready hfd, handle_client hready hfd]
        exact hbacklog

/-- A run from such a state stays there. -/
theorem Behind.run (h : Behind listenFD r) {es : List ReactorEvent}
    (hes : r.Legal listenFD (fun _ _ => True) es) : Behind listenFD (r.run listenFD es) := by
  induction es generalizing r with
  | nil => exact h
  | cons e es ih => exact ih (h.next hes.2.1) hes.2.2

/-- An arrival under an edge that is not reported yet, or an `accept` that
fails, leaves a connection behind. -/
theorem InStep.behind (h : InStep listenFD r) (hnot : ¬ r.OneByOne listenFD e)
    (hallowed : r.Allowed listenFD e) : Behind listenFD (r.next listenFD e) := by
  refine ⟨distinct_next h.distinct hallowed, ?_⟩
  have hlength : r.backlog.length = r.due listenFD := by
    rw [h.backlog, List.length_range']
  cases e with
  | arrive =>
      have hedge : r.edge = true := by simpa [OneByOne] using hnot
      rw [due_arrive_again hedge, ← hlength]
      show r.backlog.length < (r.backlog ++ [r.arrived]).length
      simp
  | epollWait events => exact absurd trivial hnot
  | handle answers =>
      simp only [OneByOne, not_forall] at hnot
      obtain ⟨event, hhead, hfd, -, haccept⟩ := hnot
      obtain ⟨first, rest, hready⟩ := List.exists_cons_of_ne_nil hallowed.2.1
      rw [hready] at hhead
      cases hhead
      have haccept : answers.accept = none := not_not.mp haccept
      have hdue := due_listen h.distinct hready hfd answers
      have hsame : (r.handle listenFD answers).backlog = r.backlog := by
        rw [handle_listen hready hfd, haccept]
      rw [Reactor.next, hsame]
      omega

/-- **The backlog.** Along every run in which no two arrivals share a report and
`accept` does not fail on a connection that is there, each report is followed by
the acceptance of all that had arrived before it, and nothing is left in the
backlog without a report to come. The first event that breaks the rule leaves a
connection behind for good: in whatever state follows in which no report is due,
one waits. -/
theorem backlog_drained
    (hr : (reactor listenFD (OneByOne listenFD)).Reachable r) :
    Drained listenFD r ∧
      ∀ e, r.Allowed listenFD e → ¬ r.OneByOne listenFD e →
        ∀ es, (r.next listenFD e).Legal listenFD (fun _ _ => True) es →
          ((r.next listenFD e).run listenFD es).due listenFD = 0 →
            ¬ Drained listenFD ((r.next listenFD e).run listenFD es) := by
  have hinvariant : (reactor listenFD (OneByOne listenFD)).Invariant (InStep listenFD) := by
    apply TSys.Inductive.invariant
    refine ⟨?_, ?_⟩
    · rintro r rfl
      exact InStep.new
    · rintro r e r' h ⟨hok, hallowed, rfl⟩
      exact h.next hok hallowed
  have h := hinvariant r hr
  refine ⟨h.drained, ?_⟩
  intro e hallowed hnot es hes hdue hdrained
  have hbehind := ((h.behind hnot hallowed).run hes).backlog
  have hne : ((r.next listenFD e).run listenFD es).backlog ≠ [] :=
    List.ne_nil_of_length_pos (Nat.lt_of_le_of_lt (Nat.zero_le _) hbehind)
  have := hdrained.stranded hne
  omega

/-- Two connections arrive, one after the other. -/
theorem backlog_drained_one :
    Drained 3 (new.run 3 [.arrive, .epollWait [⟨3, true, false⟩],
      .handle ⟨some 5, .wouldBlock, .wouldBlock⟩, .arrive, .epollWait [⟨3, true, false⟩],
      .handle ⟨some 6, .wouldBlock, .wouldBlock⟩]) := by
  refine (backlog_drained (reachable_run (.init rfl) ?_)).1
  refine ⟨rfl, by decide, trivial, by decide, ?_, by decide, rfl, by decide, trivial, by decide, ?_,
    by decide, trivial⟩
  · intro event _ _ _ h
    cases h
  · intro event _ _ _ h
    cases h

/-- Two connections arrive before the report, and one is accepted for it. -/
theorem two_arrivals_one_report :
    ∃ r, (reactor 3 (fun _ _ => True)).Reachable r ∧ ¬ Drained 3 r := by
  refine ⟨new.run 3 [.arrive, .arrive, .epollWait [⟨3, true, false⟩],
    .handle ⟨some 5, .wouldBlock, .wouldBlock⟩], ?_, ?_⟩
  · apply reachable_run (.init rfl)
    exact ⟨trivial, by decide, trivial, by decide, trivial, by decide, trivial, by decide,
      trivial⟩
  · intro h
    have := h.stranded (by decide)
    revert this
    decide

end LearnSpace.KvStore.Reactor
