import LearnSpace.KvStore.Reactor

/-!
# The event map of the reactor

Between two events the map, the objects and the open descriptors fit together:
an entry is keyed by the descriptor of its object, and every open descriptor
has one. Closing a client through `onClose` keeps this. The error path of
`onRecv` does not: `happenError` closes the descriptor and leaves the entry.
-/

namespace LearnSpace.KvStore

open Keel Function

namespace ReactorServer

/-- What the map is for. -/
structure Consistent (s : ReactorServer) : Prop where
  entry : ∀ fd p, s.eventMap fd = some p →
    0 ≤ fd ∧ ∃ c, s.objects.cell p = some c ∧ c.fd = fd
  opened : ∀ fd, s.isOpen fd = true → (s.eventMap fd).isSome

/-- The map leads from `fd` to an object of this descriptor. -/
def Serves (s : ReactorServer) (fd : Int) : Prop :=
  ∃ p c, s.eventMap fd = some p ∧ s.objects.load p = some c ∧ c.fd = fd

/-- The inductive invariant: only open descriptors have entries or are watched,
and nothing waits to be sent. -/
structure Good (s : ReactorServer) : Prop extends Consistent s where
  live : ∀ fd p, s.eventMap fd = some p → s.isOpen fd = true
  watched : ∀ fd, (s.interest fd).isSome → s.isOpen fd = true
  unsent : ∀ p c, s.objects.cell p = some c → c.sendBuffer.size = 0

theorem Good.new : Good new where
  entry _ _ h := by cases h
  opened _ h := by cases h
  live _ _ h := by cases h
  watched _ h := by cases h
  unsent _ _ h := by cases h

variable {s s₀ : ReactorServer} {fd : Int} {p : Ptr} {c c' : KVTcpClient}

theorem Good.serves (h : Good s) (hopen : s.isOpen fd = true) : s.Serves fd := by
  obtain ⟨p, hp⟩ := Option.isSome_iff_exists.mp (h.opened fd hopen)
  obtain ⟨-, c, hc, hfd⟩ := h.entry fd p hp
  exact ⟨p, c, hp, hc, hfd⟩

/-! ## One write -/

theorem deref_eq (hc : s.objects.cell p = some c)
    (f : KVTcpClient → ReactorServer × Ending) : s.deref p f = f c := by
  simp only [deref, Heap.load, hc]

theorem store_eq (hc : s.objects.cell p = some c) (c' : KVTcpClient) :
    ∃ objects, s.store p c' = ({ s with objects := objects }, .handled) ∧
      objects.cell = update s.objects.cell p (some c') := by
  obtain ⟨objects, hstore, hcell, -⟩ := Heap.store_eq hc c'
  exact ⟨objects, by simp only [store, hstore], hcell⟩

/-- A write that leaves the descriptor alone. -/
theorem Good.overwrite (h : Good s) (hc : s.objects.cell p = some c)
    (hfd : c'.fd = c.fd) (hsend : c'.sendBuffer.size = 0) {objects : Heap KVTcpClient}
    (hcell : objects.cell = update s.objects.cell p (some c')) :
    Good { s with objects := objects } where
  entry g q hq := by
    obtain ⟨hg, d, hd, hdg⟩ := h.entry g q hq
    refine ⟨hg, ?_⟩
    show ∃ d, objects.cell q = some d ∧ d.fd = g
    rw [hcell]
    by_cases hqp : q = p
    · subst hqp
      rw [hc] at hd
      cases hd
      exact ⟨c', update_self .., hfd.trans hdg⟩
    · exact ⟨d, by rw [update_of_ne hqp, hd], hdg⟩
  opened := h.opened
  live := h.live
  watched := h.watched
  unsent q d hd := by
    have hd : objects.cell q = some d := hd
    rw [hcell] at hd
    by_cases hqp : q = p
    · rw [hqp, update_self] at hd
      cases hd
      exact hsend
    · rw [update_of_ne hqp] at hd
      exact h.unsent q d hd

/-! ## One event -/

/-- The handling of an event for `fd` is under way on the object `p`: it is
still filed under `fd`, or closed. Other descriptors are as they were. -/
structure Handling (s₀ s : ReactorServer) (fd : Int) (p : Ptr) : Prop where
  good : Good s
  object : ∃ c, s.objects.cell p = some c ∧ (s.eventMap fd = some p ∨ c.fd = -1)
  frame : ∀ g, g ≠ fd → s.isOpen g = s₀.isOpen g

theorem Handling.start (h : Good s) (hp : s.eventMap fd = some p) : Handling s s fd p := by
  obtain ⟨-, c, hc, -⟩ := h.entry fd p hp
  exact ⟨h, ⟨c, hc, .inl hp⟩, fun _ _ => rfl⟩

/-- What the rest of a handler keeps, whether or not it is come to. -/
theorem Handling.andThen {r : ReactorServer × Ending} (h : Handling s₀ r.1 fd p)
    {f : ReactorServer → ReactorServer × Ending}
    (hf : Handling s₀ (f r.1).1 fd p) : Handling s₀ (andThen r f).1 fd p := by
  unfold ReactorServer.andThen
  split
  · exact hf
  · exact h

/-- A write to the object that leaves the descriptor alone. -/
theorem Handling.store (h : Handling s₀ s fd p) (hc : s.objects.cell p = some c)
    (c' : KVTcpClient) (hfd : c'.fd = c.fd) (hsend : c'.sendBuffer.size = 0) :
    ∃ s', s.store p c' = (s', .handled) ∧ Handling s₀ s' fd p ∧ s'.eventMap = s.eventMap := by
  obtain ⟨objects, hstore, hcell⟩ := store_eq hc c'
  refine ⟨_, hstore, ⟨h.good.overwrite hc hfd hsend hcell, ?_, h.frame⟩, rfl⟩
  obtain ⟨d, hd, hobject⟩ := h.object
  rw [hc] at hd
  cases hd
  refine ⟨c', ?_, hobject.imp_right hfd.trans⟩
  show objects.cell p = some c'
  rw [hcell, update_self]

theorem Handling.appendReceived (h : Handling s₀ s fd p) (bytes : List Byte) :
    ∃ s', s.appendReceived p bytes = (s', .handled) ∧ Handling s₀ s' fd p ∧
      s'.eventMap = s.eventMap := by
  obtain ⟨c, hc, -⟩ := h.object
  rw [ReactorServer.appendReceived, deref_eq hc]
  exact h.store hc _ rfl (h.good.unsent p c hc)

theorem Handling.recvImp (h : Handling s₀ s fd p) :
    Handling s₀ (s.recvImp p).1 fd p ∧ (s.recvImp p).1.eventMap = s.eventMap := by
  obtain ⟨c, hc, -⟩ := h.object
  rw [ReactorServer.recvImp, deref_eq hc]
  split
  · exact ⟨h, rfl⟩
  · rename_i recvBuffer _ _
    obtain ⟨s', hstore, h', hmap⟩ :=
      h.store hc { c with recvBuffer := recvBuffer } rfl (h.good.unsent p c hc)
    rw [hstore]
    exact ⟨h', hmap⟩

/-- Closing takes the entry out before the descriptor is given up. -/
theorem Handling.closeImp (h : Handling s₀ s fd p) (hp : s.eventMap fd = some p) :
    Handling s₀ (s.closeImp p).1 fd p := by
  obtain ⟨-, c, hc, hfd⟩ := h.good.entry fd p hp
  rw [ReactorServer.closeImp, deref_eq hc]
  obtain ⟨objects, hstore, hcell⟩ :=
    store_eq (s := (s.removeEventObj c.fd).close c.fd) hc { c with fd := -1 }
  rw [hstore, hfd]
  have hclosed : objects.cell = update s.objects.cell p (some { c with fd := -1 }) := hcell
  refine ⟨⟨⟨?_, ?_⟩, ?_, ?_, ?_⟩, ?_, ?_⟩
  · intro g q hq
    have hq : update s.eventMap fd none g = some q := hq
    by_cases hg : g = fd
    · rw [hg, update_self] at hq
      cases hq
    · rw [update_of_ne hg] at hq
      obtain ⟨hpos, d, hd, hdg⟩ := h.good.entry g q hq
      -- the object of another descriptor is another object
      have hqp : q ≠ p := by
        rintro rfl
        rw [hc] at hd
        cases hd
        exact hg (hdg.symm.trans hfd)
      refine ⟨hpos, d, ?_, hdg⟩
      show objects.cell q = some d
      rw [hclosed, update_of_ne hqp, hd]
  · intro g hopen
    have hopen : update s.isOpen fd false g = true := hopen
    show (update s.eventMap fd none g).isSome
    by_cases hg : g = fd
    · rw [hg, update_self] at hopen
      cases hopen
    · rw [update_of_ne hg] at hopen ⊢
      exact h.good.opened g hopen
  · intro g q hq
    have hq : update s.eventMap fd none g = some q := hq
    show update s.isOpen fd false g = true
    by_cases hg : g = fd
    · rw [hg, update_self] at hq
      cases hq
    · rw [update_of_ne hg] at hq ⊢
      exact h.good.live g q hq
  · intro g hwatched
    have hwatched : (update (update s.interest fd none) fd none g).isSome := hwatched
    show update s.isOpen fd false g = true
    by_cases hg : g = fd
    · rw [hg, update_self] at hwatched
      cases hwatched
    · rw [update_of_ne hg, update_of_ne hg] at hwatched
      rw [update_of_ne hg]
      exact h.good.watched g hwatched
  · intro q d hd
    have hd : objects.cell q = some d := hd
    rw [hclosed] at hd
    by_cases hqp : q = p
    · rw [hqp, update_self] at hd
      cases hd
      exact h.good.unsent p c hc
    · rw [update_of_ne hqp] at hd
      exact h.good.unsent q d hd
  · refine ⟨{ c with fd := -1 }, ?_, .inr rfl⟩
    show objects.cell p = _
    rw [hclosed, update_self]
  · intro g hg
    show update s.isOpen fd false g = s₀.isOpen g
    rw [update_of_ne hg]
    exact h.frame g hg

/-- The flags of a filed object are set; the map and the objects stay. -/
theorem Handling.updateEventObj (h : Handling s₀ s fd p) (g : Int) :
    Handling s₀ (s.updateEventObj g).1 fd p := by
  unfold ReactorServer.updateEventObj
  split
  · exact h
  · rename_i q hq
    obtain ⟨-, d, hd, -⟩ := h.good.entry g q hq
    rw [deref_eq hd]
    split
    · rename_i hopen
      refine ⟨⟨⟨h.good.entry, h.good.opened⟩, h.good.live, ?_, h.good.unsent⟩, h.object,
        h.frame⟩
      intro k hwatched
      have hwatched : (update s.interest d.fd (some d.events) k).isSome := hwatched
      by_cases hk : k = d.fd
      · rw [hk]
        exact hopen
      · rw [update_of_ne hk] at hwatched
        exact h.good.watched k hwatched
    · exact h

theorem Handling.sendImp (h : Handling s₀ s fd p) : Handling s₀ (s.sendImp p).1 fd p := by
  obtain ⟨c, hc, -⟩ := h.object
  rw [ReactorServer.sendImp, deref_eq hc]
  split
  · rename_i hempty
    obtain ⟨s', hstore, h', -⟩ := h.store hc { c with type := .Read } rfl hempty
    rw [hstore]
    exact h'.updateEventObj c.fd
  · exact h

/-- Nothing waits to be sent, so the loop of `onSend` is left at once. -/
theorem Handling.onSend (h : Handling s₀ s fd p) (answer : Sent) :
    Handling s₀ (s.onSend p answer).1 fd p := by
  obtain ⟨c, hc, -⟩ := h.object
  have hempty := h.good.unsent p c hc
  have hloop : s.onSend p answer = s.sendDone p 0 := by
    unfold ReactorServer.onSend
    cases answer <;> rw [onSendFrom, sendLoop, deref_eq hc, if_pos hempty]
  rw [hloop, sendDone, removeSent, deref_eq hc]
  have hsend : (c.sendBuffer.remove 0 0 (Nat.zero_le _)).size = 0 := by
    have : c.sendBuffer.content = [] := List.eq_nil_of_length_eq_zero hempty
    simp [Bytes.size, Bytes.remove, this]
  obtain ⟨s', hstore, h', -⟩ := h.store hc
    { c with sendBuffer := c.sendBuffer.remove 0 0 (Nat.zero_le _) } rfl hsend
  rw [hstore]
  exact h'.sendImp

end ReactorServer

/-- The loop of `onRecv` meets an error. -/
def Received.Fails : Received → Prop
  | .data _ more => more.Fails
  | .failed => True
  | .wouldBlock => False
  | .closed => False

namespace ReactorServer

variable {s s₀ : ReactorServer} {fd : Int} {p : Ptr} {answer : Received}

/-- `onRecv` without an error, by induction on what `recv` answers. -/
theorem Handling.onRecv (h : Handling s₀ s fd p) (hp : s.eventMap fd = some p)
    (hans : ¬ answer.Fails) : Handling s₀ (s.onRecv p answer).1 fd p := by
  induction answer generalizing s with
  | data bytes more ih =>
      obtain ⟨s', happend, h', hmap⟩ := h.appendReceived bytes
      rw [ReactorServer.onRecv, happend]
      exact ih h' (by rw [hmap, hp]) hans
  | wouldBlock => exact h.recvImp.1
  | closed =>
      obtain ⟨h', hmap⟩ := h.recvImp
      exact h'.andThen (h'.closeImp (by rw [hmap, hp]))
  | failed => exact absurd trivial hans

/-- `onRecv` with an error leaves the entry of a closed descriptor. -/
theorem Handling.onRecv_fails (h : Handling s₀ s fd p) (hp : s.eventMap fd = some p)
    (hans : answer.Fails) :
    ∃ s', s.onRecv p answer = (s', .undefined) ∧ ¬ Consistent s' := by
  induction answer generalizing s with
  | data bytes more ih =>
      obtain ⟨s', happend, h', hmap⟩ := h.appendReceived bytes
      rw [ReactorServer.onRecv, happend]
      exact ih h' (by rw [hmap, hp]) hans
  | wouldBlock => exact absurd hans (by simp [Received.Fails])
  | closed => exact absurd hans (by simp [Received.Fails])
  | failed =>
      obtain ⟨hpos, c, hc, hfd⟩ := h.good.entry fd p hp
      have hne : c.fd ≠ -1 := by omega
      obtain ⟨objects, hstore, hcell⟩ :=
        store_eq (s := s.close c.fd) hc { c with fd := -1 }
      have herror : s.happenError p =
          ({ s.close c.fd with objects := objects }, .handled) := by
        rw [happenError, deref_eq hc, if_pos hne, hstore]
      refine ⟨_, by rw [ReactorServer.onRecv, herror]; rfl, fun hcons => ?_⟩
      obtain ⟨-, d, hd, hdfd⟩ := hcons.entry fd p hp
      have hd : objects.cell p = some d := hd
      have hclosed : objects.cell p = some { c with fd := -1 } := by
        rw [hcell, update_self]
      rw [hclosed] at hd
      cases hd
      have : (-1 : Int) = fd := hdfd
      omega

/-- A closed object is destroyed; no entry points to it. -/
theorem Handling.release (h : Handling s₀ s fd p) :
    Good (s.release fd p).1 ∧ (s.release fd p).1.isOpen = s.isOpen := by
  obtain ⟨c, hc, hobject⟩ := h.object
  unfold ReactorServer.release
  split
  · exact ⟨h.good, rfl⟩
  · rename_i hkeep
    have hfd : c.fd = -1 := by
      rcases hobject with hp | hfd
      · exact absurd (.inr hp) hkeep
      · exact hfd
    obtain ⟨objects, hfree, hcell⟩ := Heap.free_eq hc
    have hdestroy : s.destroy p = ({ s with objects := objects }, .handled) := by
      rw [destroy, deref_eq hc]
      simp only [hfd, ne_eq, not_true_eq_false, if_false, hfree]
    rw [hdestroy]
    refine ⟨⟨⟨?_, h.good.opened⟩, h.good.live, h.good.watched, ?_⟩, rfl⟩
    · intro g q hq
      obtain ⟨hpos, d, hd, hdg⟩ := h.good.entry g q hq
      have hqp : q ≠ p := by
        rintro rfl
        rw [hc] at hd
        cases hd
        omega
      refine ⟨hpos, d, ?_, hdg⟩
      show objects.cell q = some d
      rw [hcell, update_of_ne hqp, hd]
    · intro q d hd
      have hd : objects.cell q = some d := hd
      rw [hcell] at hd
      by_cases hqp : q = p
      · rw [hqp, update_self] at hd
        cases hd
      · rw [update_of_ne hqp] at hd
        exact h.good.unsent q d hd

variable {event : EpollEvent} {recv : Received}

/-- The loop body for a client whose `recv` meets no error. -/
theorem Good.dispatch (h : Good s) (hopen : s.isOpen event.fd = true)
    (hrecv : event.epollin = true → ¬ recv.Fails) (send : Sent) :
    Good (s.dispatch event recv send).1 ∧
      ∀ g, g ≠ event.fd → (s.dispatch event recv send).1.isOpen g = s.isOpen g := by
  obtain ⟨p, hp⟩ := Option.isSome_iff_exists.mp (h.opened _ hopen)
  have hstart := Handling.start h hp
  have hread : Handling s
      (if event.epollin then s.onRecv p recv else (s, .handled)).1 event.fd p := by
    split
    · rename_i hin
      exact hstart.onRecv hp (hrecv hin)
    · exact hstart
  simp only [ReactorServer.dispatch, lookup, hp]
  generalize (if event.epollin then s.onRecv p recv else (s, .handled)) = r at hread
  rcases r with ⟨s₁, ending⟩
  cases ending with
  | threw => exact ⟨hread.good, hread.frame⟩
  | undefined => exact ⟨hread.good, hread.frame⟩
  | handled =>
      have hwrite : Handling s
          (if event.epollout then s₁.onSend p send else (s₁, .handled)).1 event.fd p := by
        split
        · exact hread.onSend send
        · exact hread
      simp only [ReactorServer.andThen]
      generalize (if event.epollout then s₁.onSend p send else (s₁, .handled)) = r at hwrite
      rcases r with ⟨s₂, ending⟩
      cases ending with
      | threw => exact ⟨hwrite.good, hwrite.frame⟩
      | undefined => exact ⟨hwrite.good, hwrite.frame⟩
      | handled =>
          obtain ⟨hgood, hsame⟩ := hwrite.release
          refine ⟨hgood, fun g hg => ?_⟩
          show (s₂.release event.fd p).1.isOpen g = _
          rw [hsame]
          exact hwrite.frame g hg

/-- With an error, the damaged map is what the handler leaves. -/
theorem Good.dispatch_fails (h : Good s) (hopen : s.isOpen event.fd = true)
    (hin : event.epollin = true) (hrecv : recv.Fails) (send : Sent) :
    ¬ Consistent (s.dispatch event recv send).1 := by
  obtain ⟨p, hp⟩ := Option.isSome_iff_exists.mp (h.opened _ hopen)
  obtain ⟨s', heq, hnot⟩ := (Handling.start h hp).onRecv_fails hp hrecv
  simp only [ReactorServer.dispatch, lookup, hp, hin, if_true, heq, andThen]
  exact hnot

/-- What `onAccept` makes of a descriptor without an entry. -/
theorem onAccept_eq (hfree : s.eventMap fd = none) :
    (s.opened fd).onAccept fd =
      ({ objects := (s.objects.alloc (.new fd .Read)).2
         eventMap := update s.eventMap fd (some s.objects.brk)
         isOpen := update s.isOpen fd true
         interest := update s.interest fd (some ⟨true, false, true⟩) }, .handled) := by
  generalize hc : KVTcpClient.new fd .Read = c
  have hcell : (s.objects.alloc c).2.cell = update s.objects.cell s.objects.brk (some c) := rfl
  have hload : (s.objects.alloc c).2.load s.objects.brk = some c := by
    rw [Heap.load, hcell, update_self]
  have hbrk : (s.objects.alloc c).1 = s.objects.brk := rfl
  have hevents : c.events = ⟨true, false, true⟩ := by rw [← hc]; rfl
  have hfd : c.fd = fd := by rw [← hc]; rfl
  simp only [ReactorServer.onAccept, acceptImp, opened, addEventObj, deref,
    ReactorServer.updateEventObj]
  simp only [hc, hbrk, hload, hfd, hfree, Option.isSome_none, Bool.false_eq_true, if_false,
    update_self, if_true, hevents, ReactorServer.andThen, ReactorServer.release, or_true]

/-- A descriptor that was not open gets an object, an entry and a place in the
epoll set. -/
theorem Good.onAccept (h : Good s) (hclosed : s.isOpen fd = false) (hpos : 0 ≤ fd) :
    Good ((s.opened fd).onAccept fd).1 ∧
      ((s.opened fd).onAccept fd).1.isOpen = update s.isOpen fd true ∧
      ((s.opened fd).onAccept fd).1.interest fd = some ⟨true, false, true⟩ := by
  have hfree : s.eventMap fd = none := by
    by_contra hne
    obtain ⟨p, hp⟩ := Option.ne_none_iff_exists'.mp hne
    rw [h.live fd p hp] at hclosed
    cases hclosed
  rw [onAccept_eq hfree]
  let c : KVTcpClient := .new fd .Read
  have hcell : (s.objects.alloc c).2.cell = update s.objects.cell s.objects.brk (some c) := rfl
  refine ⟨⟨⟨?_, ?_⟩, ?_, ?_, ?_⟩, rfl, update_self ..⟩
  · intro g q hq
    have hq : update s.eventMap fd (some s.objects.brk) g = some q := hq
    show 0 ≤ g ∧ ∃ d, (s.objects.alloc c).2.cell q = some d ∧ d.fd = g
    by_cases hg : g = fd
    · rw [hg, update_self] at hq
      cases hq
      rw [hg]
      exact ⟨hpos, c, by rw [hcell, update_self], rfl⟩
    · rw [update_of_ne hg] at hq
      obtain ⟨hpos, d, hd, hdg⟩ := h.entry g q hq
      have hne : q ≠ s.objects.brk := Nat.ne_of_lt (s.objects.lt_brk hd)
      exact ⟨hpos, d, by rw [hcell, update_of_ne hne, hd], hdg⟩
  · intro g hopen
    have hopen : update s.isOpen fd true g = true := hopen
    show (update s.eventMap fd (some s.objects.brk) g).isSome
    by_cases hg : g = fd
    · rw [hg, update_self]
      rfl
    · rw [update_of_ne hg] at hopen ⊢
      exact h.opened g hopen
  · intro g q hq
    have hq : update s.eventMap fd (some s.objects.brk) g = some q := hq
    show update s.isOpen fd true g = true
    by_cases hg : g = fd
    · rw [hg, update_self]
    · rw [update_of_ne hg] at hq ⊢
      exact h.live g q hq
  · intro g hwatched
    have hwatched : (update s.interest fd (some ⟨true, false, true⟩) g).isSome := hwatched
    show update s.isOpen fd true g = true
    by_cases hg : g = fd
    · rw [hg, update_self]
    · rw [update_of_ne hg] at hwatched ⊢
      exact h.watched g hwatched
  · intro q d hd
    have hd : (s.objects.alloc c).2.cell q = some d := hd
    rw [hcell] at hd
    by_cases hq : q = s.objects.brk
    · rw [hq, update_self] at hd
      cases hd
      rfl
    · rw [update_of_ne hq] at hd
      exact h.unsent q d hd

end ReactorServer

/-! ## Runs -/

namespace Reactor

variable {listenFD : Int} {r : Reactor}

/-- The claim on the map, in a state: it is consistent, and each report that
`doRun` has yet to come to leads to the object of its descriptor. -/
structure MapSound (listenFD : Int) (r : Reactor) : Prop where
  consistent : r.server.Consistent
  dispatched : ∀ event ∈ r.ready, event.fd ≠ listenFD → r.server.Serves event.fd

/-- The event is the handling of a report of the listening socket, for which
`accept` hands out `clFd`. -/
def Accepts (listenFD : Int) (r : Reactor) (e : ReactorEvent) (clFd : Int) : Prop :=
  ∃ event rest answers, r.ready = event :: rest ∧ event.fd = listenFD ∧
    e = .handle answers ∧ answers.accept = some clFd

/-- An accepted descriptor is open, has its object and is in the epoll set. -/
def Registered (listenFD : Int) (r : Reactor) (e : ReactorEvent) (r' : Reactor) : Prop :=
  ∀ clFd, r.Accepts listenFD e clFd →
    r'.server.isOpen clFd = true ∧ r'.server.Serves clFd ∧
      r'.server.interest clFd = some ⟨true, false, true⟩

/-- No `recv` for the report that is handled fails with an error other than
`EWOULDBLOCK`. -/
def NoRecvError (listenFD : Int) (r : Reactor) (e : ReactorEvent) : Prop :=
  ∀ event rest answers, r.ready = event :: rest → e = .handle answers →
    event.fd ≠ listenFD → event.epollin = true → ¬ answers.recv.Fails

/-- The inductive invariant. -/
structure Sound (listenFD : Int) (r : Reactor) : Prop where
  good : r.server.Good
  distinct : (r.ready.map (·.fd)).Nodup
  isOpen : ∀ event ∈ r.ready, event.fd ≠ listenFD → r.server.isOpen event.fd = true

theorem Sound.new : Sound listenFD new where
  good := .new
  distinct := List.nodup_nil
  isOpen _ h := by cases h

theorem Sound.mapSound (h : Sound listenFD r) : MapSound listenFD r where
  consistent := h.good.toConsistent
  dispatched event hmem hne := h.good.serves (h.isOpen event hmem hne)

/-- The other reports are for other descriptors. -/
theorem Sound.rest {event : EpollEvent} {rest : List EpollEvent} (h : Sound listenFD r)
    (hready : r.ready = event :: rest) :
    (rest.map (·.fd)).Nodup ∧ ∀ other ∈ rest, other.fd ≠ event.fd := by
  have hdistinct := h.distinct
  rw [hready, List.map_cons, List.nodup_cons] at hdistinct
  refine ⟨hdistinct.2, fun other hmem heq => hdistinct.1 ?_⟩
  rw [← heq]
  exact List.mem_map_of_mem hmem

/-- The report of the listening socket. -/
theorem Sound.accept {event : EpollEvent} {rest : List EpollEvent} {answers : Answers}
    (h : Sound listenFD r) (hready : r.ready = event :: rest) (hfd : event.fd = listenFD)
    (hallowed : r.Allowed listenFD (.handle answers)) :
    Sound listenFD (r.handle listenFD answers) ∧
      Registered listenFD r (.handle answers) (r.handle listenFD answers) := by
  obtain ⟨hdistinct, -⟩ := h.rest hready
  have hrest : ∀ other ∈ rest, other.fd ≠ listenFD → r.server.isOpen other.fd = true := by
    intro other hmem
    exact h.isOpen other (by rw [hready]; exact List.mem_cons_of_mem _ hmem)
  rw [handle_listen hready hfd]
  cases haccept : answers.accept with
  | none =>
      refine ⟨⟨h.good, hdistinct, hrest⟩, ?_⟩
      rintro clFd ⟨_, _, answers', -, -, hans, hsome⟩
      cases hans
      rw [haccept] at hsome
      cases hsome
  | some fd =>
      obtain ⟨hpos, -, hclosed, -⟩ := hallowed.2.2.2 fd haccept
      obtain ⟨hgood, hopen, hinterest⟩ := h.good.onAccept hclosed hpos
      refine ⟨⟨hgood, hdistinct, fun other hmem hne => ?_⟩, ?_⟩
      · show ((r.server.opened fd).onAccept fd).1.isOpen other.fd = true
        rw [hopen]
        by_cases heq : other.fd = fd
        · rw [heq, update_self]
        · rw [update_of_ne heq]
          exact hrest other hmem hne
      · rintro clFd ⟨_, _, answers', -, -, hans, hsome⟩
        cases hans
        rw [haccept] at hsome
        cases hsome
        have hself : ((r.server.opened fd).onAccept fd).1.isOpen fd = true := by
          rw [hopen, update_self]
        exact ⟨hself, hgood.serves hself, hinterest⟩

/-- The report of a client, without a receive error. -/
theorem Sound.client {event : EpollEvent} {rest : List EpollEvent} {answers : Answers}
    (h : Sound listenFD r) (hready : r.ready = event :: rest) (hfd : event.fd ≠ listenFD)
    (hrecv : event.epollin = true → ¬ answers.recv.Fails) :
    Sound listenFD (r.handle listenFD answers) := by
  obtain ⟨hdistinct, hother⟩ := h.rest hready
  have hmem : event ∈ r.ready := by rw [hready]; exact List.mem_cons_self
  obtain ⟨hgood, hframe⟩ := h.good.dispatch (h.isOpen event hmem hfd) hrecv answers.send
  rw [handle_client hready hfd]
  refine ⟨hgood, hdistinct, fun other hmem hne => ?_⟩
  show (r.server.dispatch event answers.recv answers.send).1.isOpen other.fd = true
  rw [hframe other.fd (hother other hmem)]
  exact h.isOpen other (by rw [hready]; exact List.mem_cons_of_mem _ hmem) hne

/-- Every event without a receive error keeps the invariant. -/
theorem Sound.next {e : ReactorEvent} (h : Sound listenFD r)
    (hok : NoRecvError listenFD r e) (hallowed : r.Allowed listenFD e) :
    Sound listenFD (r.next listenFD e) ∧ Registered listenFD r e (r.next listenFD e) := by
  cases e with
  | arrive =>
      refine ⟨⟨h.good, h.distinct, h.isOpen⟩, ?_⟩
      rintro clFd ⟨_, _, _, -, -, hans, -⟩
      cases hans
  | epollWait events =>
      refine ⟨?_, ?_⟩
      · obtain ⟨-, -, -, hdistinct, hreport⟩ := hallowed
        have hopen : ∀ event ∈ events, event.fd ≠ listenFD →
            r.server.isOpen event.fd = true := by
          intro event hmem hne
          have := hreport event hmem
          rw [Reportable, if_neg hne] at this
          exact h.good.watched _ this
        rw [Reactor.next]
        split <;> exact ⟨h.good, hdistinct, hopen⟩
      · rintro clFd ⟨_, _, _, -, -, hans, -⟩
        cases hans
  | handle answers =>
      obtain ⟨event, rest, hready⟩ := List.exists_cons_of_ne_nil hallowed.2.1
      by_cases hfd : event.fd = listenFD
      · exact h.accept hready hfd hallowed
      · refine ⟨h.client hready hfd (hok event rest answers hready rfl hfd), ?_⟩
        rintro clFd ⟨other, _, _, hother, hlisten, -, -⟩
        rw [hready] at hother
        cases hother
        exact absurd hlisten hfd

/-- A receive error breaks the map. -/
theorem Sound.recvError {e : ReactorEvent} (h : Sound listenFD r)
    (herror : ¬ NoRecvError listenFD r e) :
    ¬ (r.next listenFD e).server.Consistent := by
  unfold NoRecvError at herror
  push Not at herror
  obtain ⟨event, rest, answers, hready, rfl, hfd, hin, hrecv⟩ := herror
  have hmem : event ∈ r.ready := by rw [hready]; exact List.mem_cons_self
  rw [Reactor.next, handle_client hready hfd]
  exact h.good.dispatch_fails (h.isOpen event hmem hfd) hin hrecv answers.send

/-- `Sound` along runs without a receive error. -/
theorem Sound.invariant :
    (reactor listenFD (NoRecvError listenFD)).Invariant (Sound listenFD) := by
  apply TSys.Inductive.invariant
  refine ⟨?_, ?_⟩
  · rintro r rfl
    exact Sound.new
  · rintro r e r' h ⟨hok, hallowed, rfl⟩
    exact (h.next hok hallowed).1

/-- **The event map.** Along every run in which no `recv` fails with an error
other than `EWOULDBLOCK`, whatever numbers the kernel hands out again, the map
is consistent and every report leads to the object of its descriptor. From each
of these states an event keeps this, and files the descriptor it accepts, if and
only if it brings no such error. -/
theorem eventMap_consistent_iff
    (hr : (reactor listenFD (NoRecvError listenFD)).Reachable r) :
    MapSound listenFD r ∧
      ∀ e, r.Allowed listenFD e →
        (MapSound listenFD (r.next listenFD e) ∧
            Registered listenFD r e (r.next listenFD e) ↔
          NoRecvError listenFD r e) := by
  have h := Sound.invariant r hr
  refine ⟨h.mapSound, fun e hallowed => ⟨fun hsound => ?_, fun hok => ?_⟩⟩
  · by_contra herror
    exact h.recvError herror hsound.1.consistent
  · obtain ⟨h', hregistered⟩ := h.next hok hallowed
    exact ⟨h'.mapSound, hregistered⟩

/-- A client connects, gets the descriptor 5 and is reported readable. -/
def connected : List ReactorEvent :=
  [.arrive, .epollWait [⟨3, true, false⟩], .handle ⟨some 5, .wouldBlock, .wouldBlock⟩,
    .epollWait [⟨5, true, false⟩]]

theorem eventMap_consistent_iff_connected :
    MapSound 3 (new.run 3 connected) ∧
      ∀ e, (new.run 3 connected).Allowed 3 e →
        (MapSound 3 ((new.run 3 connected).next 3 e) ∧
            Registered 3 (new.run 3 connected) e ((new.run 3 connected).next 3 e) ↔
          NoRecvError 3 (new.run 3 connected) e) := by
  refine eventMap_consistent_iff (reachable_run (.init rfl) ?_)
  refine ⟨?_, by decide, ?_, by decide, ?_, by decide, ?_, by decide, trivial⟩
  · rintro _ _ _ _ h
    cases h
  · rintro _ _ _ _ h
    cases h
  · rintro event rest answers hready h
    cases hready
    simp
  · rintro _ _ _ _ h
    cases h

/-- The peer resets the connection: the descriptor 5 is closed, its object has
none, and the entry stays. -/
theorem reset_leaves_entry :
    ∃ r, (reactor 3 (fun _ _ => True)).Reachable r ∧ ¬ MapSound 3 r := by
  refine ⟨new.run 3 (connected ++ [.handle ⟨none, .failed, .wouldBlock⟩]), ?_, ?_⟩
  · apply reachable_run (.init rfl)
    exact ⟨trivial, by decide, trivial, by decide, trivial, by decide, trivial, by decide,
      trivial, by decide, trivial⟩
  · intro h
    obtain ⟨-, c, hc, hfd⟩ := h.consistent.entry 5 1 (by decide)
    have hclosed : (some c).map KVTcpClient.fd = some (-1) := by
      rw [← hc]
      decide
    rw [Option.map_some, hfd] at hclosed
    cases hclosed

end Reactor
end LearnSpace.KvStore
