import Mathlib.Algebra.Group.Int.Defs
import Mathlib.Algebra.GroupWithZero.Nat
import LearnSpace.Keel.Buffer
import LearnSpace.Keel.Walk
import LearnSpace.KvStore.ReactorMap

/-!
# The loop of `onSend`

`onSend` counts in `offset` what the kernel has accepted, takes as many bytes off the front
of `_sendBuffer` behind its loop, and leaves the rest for the next event. While the calls of
`send` accept bytes, `offset` is their number (`OnTrack`).

The branch of `happenError` does not leave the loop, and the −1 of the failed call is added
to `offset`, which from then on is less than what was accepted (`OffTrack`): the bytes that
are taken off are not the ones that were sent, or more is sent behind the error, or the loop
does not end at all.
-/

namespace LearnSpace.KvStore

open Keel Keel.Fuel Function

/-- What a call of `send` answers. -/
inductive SendResult
  /-- Linux accepts at most 0x7ffff000 bytes in a call, which an `int` can hold -/
  | sent (count : Nat)
  /-- 0 -/
  | closed
  /-- −1 with `EWOULDBLOCK` -/
  | wouldBlock
  /-- −1 with any other `errno` -/
  | failed
  deriving DecidableEq

/-- What a call of `send` comes to that does not end the loop. -/
inductive Transfer
  | accepted (bytes : List Byte)
  | error
  deriving DecidableEq

/-- The bytes the kernel has accepted. -/
def accepted (log : List Transfer) : List Byte :=
  log.flatMap fun
    | .accepted bytes => bytes
    | .error => []

/-- The loop of `onSend` between two iterations. -/
structure Sending where
  calls : Nat
  offset : Int
  log : List Transfer
  deriving DecidableEq

/-- What `onSend` comes to behind its loop. -/
structure SendDone where
  sendBuffer : Bytes
  /-- `onClose` is called -/
  closes : Bool
  log : List Transfer
  deriving DecidableEq

theorem Bytes.zero_le_size (B : Bytes) : 0 ≤ B.size := Nat.zero_le _

namespace Sending

/-- `int offset = 0`. -/
def start : Sending := ⟨0, 0, []⟩

variable (s : Sending)

/-- `offset += ret`. An `int` that overflows has no defined value. -/
def next (ret : Int) (transfer : Transfer) : Option (Sending ⊕ SendDone) :=
  let offset := s.offset + ret
  if -2 ^ 31 ≤ offset ∧ offset < 2 ^ 31 then
    some (.inl ⟨s.calls + 1, offset, s.log ++ [transfer]⟩)
  else none

/-- `_sendBuffer.remove(0, offset)`. `remove` takes its length as a `size_t`. -/
def leave (sendBuffer : Bytes) (closes : Bool) : Option (Sending ⊕ SendDone) :=
  some (.inr ⟨sendBuffer.remove 0 (toSizeT s.offset) sendBuffer.zero_le_size, closes, s.log⟩)

/-- The bytes a call of `send` accepts, from `constData() + offset` on. -/
def read (sendBuffer : Bytes) (count : Nat) : Option (List Byte) :=
  if 0 ≤ s.offset then Buffer.slice sendBuffer.content s.offset.toNat count else none

/-- What the loop does with the answer of a call. -/
def answered (sendBuffer : Bytes) : SendResult → Option (Sending ⊕ SendDone)
  | .sent count => (s.read sendBuffer count).bind fun bytes => s.next count (.accepted bytes)
  | .closed => s.leave sendBuffer true
  | .wouldBlock => s.leave sendBuffer false
  -- the branch of `happenError` falls through to `offset += ret`
  | .failed => s.next (-1) .error

end Sending

/-- An iteration of the loop of `onSend`, for the answers its calls of `send` get. -/
def sendTurn (sendBuffer : Bytes) (results : Nat → SendResult) (s : Sending) :
    Option (Sending ⊕ SendDone) :=
  -- `offset` is converted for the comparison
  if sendBuffer.size = toSizeT s.offset then s.leave sendBuffer false
  else s.answered sendBuffer (results s.calls)

/-- `onSend` up to the call of `sendImp`. -/
def onSend (fuel : Nat) (sendBuffer : Bytes) (results : Nat → SendResult) : Option SendDone :=
  loop (sendTurn sendBuffer results) fuel .start

/-! ## What `onSend` is to do -/

/-- Bytes have been accepted behind an error. -/
def Spoiled (log : List Transfer) : Prop :=
  ∃ bytes, [Transfer.error, .accepted bytes].Sublist log

/-- The accepted bytes and what is left in the buffer are the old buffer, and nothing is
sent behind an error. -/
structure SendDone.Exact (sendBuffer : Bytes) (done : SendDone) : Prop where
  content : accepted done.log ++ done.sendBuffer.content = sendBuffer.content
  quiet : ¬ Spoiled done.log

/-- `onSend` comes to its end, and neither loses nor repeats a byte. -/
def SendsExactly (sendBuffer : Bytes) (results : Nat → SendResult) : Prop :=
  ∃ fuel done, onSend fuel sendBuffer results = some done ∧ done.Exact sendBuffer

/-- The first calls of `send` accept `counts` bytes, and do not exhaust the buffer. -/
structure Asked (sendBuffer : Bytes) (results : Nat → SendResult) (counts : List Nat) :
    Prop where
  answers : (List.range counts.length).map results = counts.map .sent
  short : counts.sum < sendBuffer.size

/-- What the kernel promises: a call that accepts bytes accepts no more than it was asked
to. -/
def Promised (sendBuffer : Bytes) (results : Nat → SendResult) : Prop :=
  ∀ counts count, Asked sendBuffer results counts → results counts.length = .sent count →
    0 < count ∧ count ≤ sendBuffer.size - counts.sum

/-- No call that is made fails, and `offset` can count the bytes. -/
def Unfailing (sendBuffer : Bytes) (results : Nat → SendResult) : Prop :=
  ∀ counts, Asked sendBuffer results counts → results counts.length ≠ .failed ∧
    ∀ count, results counts.length = .sent count → counts.sum + count < 2 ^ 31

variable {sendBuffer : Bytes} {results : Nat → SendResult} {counts : List Nat} {count : Nat}
  {s : Sending}

theorem Asked.nil (h : 0 < sendBuffer.size) : Asked sendBuffer results [] := ⟨rfl, h⟩

theorem map_range_concat (results : Nat → SendResult) (counts : List Nat) (count : Nat) :
    (List.range (counts ++ [count]).length).map results = (counts ++ [count]).map .sent ↔
      (List.range counts.length).map results = counts.map .sent ∧
        results counts.length = .sent count := by
  rw [List.length_append, List.length_singleton, List.range_succ, List.map_append,
    List.map_append, List.map_singleton, List.map_singleton]
  constructor
  · intro h
    obtain ⟨hinit, hlast⟩ := List.append_inj' h rfl
    exact ⟨hinit, List.singleton_inj.mp hlast⟩
  · rintro ⟨hinit, hlast⟩
    rw [hinit, hlast]

theorem Asked.concat (h : Asked sendBuffer results counts)
    (hcount : results counts.length = .sent count)
    (hshort : counts.sum + count < sendBuffer.size) :
    Asked sendBuffer results (counts ++ [count]) where
  answers := (map_range_concat results counts count).mpr ⟨h.answers, hcount⟩
  short := by
    rw [List.sum_append, List.sum_singleton]
    exact hshort

theorem Asked.init (h : Asked sendBuffer results (counts ++ [count])) :
    Asked sendBuffer results counts ∧ results counts.length = .sent count := by
  obtain ⟨hinit, hlast⟩ := (map_range_concat results counts count).mp h.answers
  have hshort := h.short
  rw [List.sum_append, List.sum_singleton] at hshort
  exact ⟨⟨hinit, by omega⟩, hlast⟩

/-! ## While bytes are accepted -/

theorem accepted_concat (log : List Transfer) (transfer : Transfer) :
    accepted (log ++ [transfer]) = accepted log ++ accepted [transfer] := List.flatMap_append

/-- `offset` is the number of bytes accepted, and they are the front of the buffer. -/
structure OnTrack (sendBuffer : Bytes) (counts : List Nat) (s : Sending) : Prop where
  calls : s.calls = counts.length
  offset : s.offset = (counts.sum : Nat)
  bounded : counts.sum < 2 ^ 31
  front : accepted s.log = sendBuffer.content.take counts.sum
  clear : .error ∉ s.log

theorem OnTrack.start : OnTrack sendBuffer [] .start :=
  ⟨rfl, rfl, by decide, rfl, List.not_mem_nil⟩

theorem OnTrack.toSizeT_offset (h : OnTrack sendBuffer counts s) :
    toSizeT s.offset = counts.sum := by
  have hbounded := h.bounded
  rw [h.offset, toSizeT]
  omega

/-- The loop is left with the accepted bytes taken off. -/
theorem OnTrack.leave (h : OnTrack sendBuffer counts s) (closes : Bool) :
    ∃ done, s.leave sendBuffer closes = some (.inr done) ∧ done.Exact sendBuffer := by
  refine ⟨_, rfl, ?_, ?_⟩
  · show accepted s.log ++ (_ ++ _) = _
    rw [h.front, h.toSizeT_offset, List.take_zero, List.nil_append, Nat.zero_add,
      List.take_append_drop]
  · rintro ⟨bytes, hsub⟩
    exact h.clear (hsub.subset List.mem_cons_self)

theorem OnTrack.turn (h : OnTrack sendBuffer counts s) (results : Nat → SendResult)
    (hshort : counts.sum < sendBuffer.size) :
    sendTurn sendBuffer results s = s.answered sendBuffer (results counts.length) := by
  rw [sendTurn, h.toSizeT_offset, if_neg (by omega), h.calls]

/-- Bytes are accepted. -/
theorem OnTrack.sent (h : OnTrack sendBuffer counts s)
    (hshort : counts.sum + count ≤ sendBuffer.size) :
    s.answered sendBuffer (.sent count) =
      s.next count (.accepted ((sendBuffer.content.drop counts.sum).take count)) := by
  have hread : s.read sendBuffer count =
      some ((sendBuffer.content.drop counts.sum).take count) := by
    rw [Sending.read, h.offset, if_pos (Int.natCast_nonneg _), Int.toNat_natCast]
    exact Buffer.slice_eq hshort
  rw [Sending.answered, hread, Option.bind_some]

theorem OnTrack.next (h : OnTrack sendBuffer counts s) (hbounded : counts.sum + count < 2 ^ 31) :
    ∃ s', s.next count (.accepted ((sendBuffer.content.drop counts.sum).take count)) =
        some (.inl s') ∧
      OnTrack sendBuffer (counts ++ [count]) s' := by
  have hoffset := h.offset
  have hsum : (counts ++ [count]).sum = counts.sum + count := by
    rw [List.sum_append, List.sum_singleton]
  rw [Sending.next, if_pos (by omega)]
  refine ⟨_, rfl, ?_, ?_, ?_, ?_, ?_⟩
  · rw [List.length_append, ← h.calls]
    rfl
  · show s.offset + count = _
    rw [hsum, hoffset]
    rfl
  · rw [hsum]
    exact hbounded
  · rw [accepted_concat, h.front, hsum, List.take_add]
    exact congrArg _ (List.append_nil _)
  · intro hmem
    rcases List.mem_append.mp hmem with hold | hnew
    · exact h.clear hold
    · cases List.mem_singleton.mp hnew

/-- Bytes that `offset` cannot count. -/
theorem OnTrack.overflow (h : OnTrack sendBuffer counts s)
    (hover : 2 ^ 31 ≤ counts.sum + count) (transfer : Transfer) :
    s.next count transfer = none := by
  have hoffset := h.offset
  exact if_neg (by omega)

/-- The loop comes to each call that is made, as long as `offset` can count the bytes. -/
theorem Asked.goes (h : Asked sendBuffer results counts) (hbounded : counts.sum < 2 ^ 31) :
    ∃ s, Goes (sendTurn sendBuffer results) counts.length .start s ∧
      OnTrack sendBuffer counts s := by
  induction counts using List.reverseRecOn with
  | nil => exact ⟨.start, .refl _, .start⟩
  | append_singleton counts count ih =>
      obtain ⟨hinit, hcount⟩ := h.init
      have hshort := h.short
      rw [List.sum_append, List.sum_singleton] at hbounded hshort
      obtain ⟨s, hgoes, hs⟩ := ih hinit (by omega)
      obtain ⟨s', hnext, hs'⟩ := hs.next hbounded
      have hturn : sendTurn sendBuffer results s = some (.inl s') := by
        rw [hs.turn results hinit.short, hcount]
        exact (hs.sent (by omega)).trans hnext
      refine ⟨s', ?_, hs'⟩
      rw [List.length_append]
      exact hgoes.trans (.next hturn)

theorem sendsExactly_of_goes {n : Nat} {done : SendDone}
    (hgoes : Goes (sendTurn sendBuffer results) n .start s)
    (hturn : sendTurn sendBuffer results s = some (.inr done))
    (hdone : done.Exact sendBuffer) : SendsExactly sendBuffer results :=
  ⟨n + 1, done, (hgoes 1).trans (loop_leave hturn 0), hdone⟩

theorem OnTrack.sendsExactly {n : Nat} (h : OnTrack sendBuffer counts s)
    (hgoes : Goes (sendTurn sendBuffer results) n .start s) {closes : Bool}
    (hturn : sendTurn sendBuffer results s = s.leave sendBuffer closes) :
    SendsExactly sendBuffer results := by
  obtain ⟨done, hleave, hdone⟩ := h.leave closes
  exact sendsExactly_of_goes hgoes (hturn.trans hleave) hdone

theorem OnTrack.exhausted (h : OnTrack sendBuffer counts s)
    (hall : counts.sum = sendBuffer.size) :
    sendTurn sendBuffer results s = s.leave sendBuffer false := by
  rw [sendTurn, h.toSizeT_offset, if_pos hall.symm]

/-- From a call that is made the loop comes to its end, when none fails: each call that
accepts bytes leaves fewer. -/
theorem Asked.sendsExactly (hpromised : Promised sendBuffer results)
    (hunfailing : Unfailing sendBuffer results) (h : Asked sendBuffer results counts)
    (hbounded : counts.sum < 2 ^ 31) : SendsExactly sendBuffer results := by
  induction hleft : sendBuffer.size - counts.sum using Nat.strong_induction_on
      generalizing counts with
  | _ left ih =>
      obtain ⟨s, hgoes, hs⟩ := h.goes hbounded
      have hturn := hs.turn results h.short
      obtain ⟨hfailed, hcounts⟩ := hunfailing counts h
      cases hresult : results counts.length with
      | failed => exact absurd hresult hfailed
      | closed =>
          rw [hresult] at hturn
          exact hs.sendsExactly hgoes hturn
      | wouldBlock =>
          rw [hresult] at hturn
          exact hs.sendsExactly hgoes hturn
      | sent count =>
          obtain ⟨hpos, hle⟩ := hpromised counts count h hresult
          have hshort := h.short
          have hbounded' := hcounts count hresult
          have hsum : (counts ++ [count]).sum = counts.sum + count := by
            rw [List.sum_append, List.sum_singleton]
          by_cases hall : counts.sum + count = sendBuffer.size
          · obtain ⟨s', hnext, hs'⟩ := hs.next hbounded'
            rw [hresult] at hturn
            have hgoes' := hgoes.trans (.next ((hturn.trans (hs.sent hall.le)).trans hnext))
            exact hs'.sendsExactly hgoes' (hs'.exhausted (hsum.trans hall))
          · refine ih (sendBuffer.size - (counts ++ [count]).sum) ?_
              (h.concat hresult (by omega)) (hsum ▸ hbounded') rfl
            omega

theorem sendsExactly_of_unfailing (hpromised : Promised sendBuffer results)
    (hunfailing : Unfailing sendBuffer results) : SendsExactly sendBuffer results := by
  by_cases hempty : sendBuffer.size = 0
  · exact OnTrack.start.sendsExactly (.refl _) (OnTrack.start.exhausted hempty.symm)
  · exact (Asked.nil (by omega)).sendsExactly hpromised hunfailing (by decide)

/-! ## Behind an error -/

/-- `offset` is less than the number of bytes accepted, unless more of them have been
accepted behind the error. -/
structure OffTrack (sendBuffer : Bytes) (s : Sending) : Prop where
  error : .error ∈ s.log
  behind : Spoiled s.log ∨ -2 ^ 31 ≤ s.offset ∧ s.offset < (accepted s.log).length ∧
    (accepted s.log).length < sendBuffer.size ∧ (accepted s.log).length < 2 ^ 31

theorem Spoiled.concat {log : List Transfer} (h : Spoiled log) (transfer : Transfer) :
    Spoiled (log ++ [transfer]) := by
  obtain ⟨bytes, hsub⟩ := h
  exact ⟨bytes, hsub.trans (List.sublist_append_left _ _)⟩

theorem Spoiled.of_accepted {log : List Transfer} (h : .error ∈ log) (bytes : List Byte) :
    Spoiled (log ++ [.accepted bytes]) :=
  ⟨bytes, (List.singleton_sublist.mpr h).append (.refl [Transfer.accepted bytes])⟩

theorem next_eq {ret : Int} {transfer : Transfer} {s' : Sending}
    (h : s.next ret transfer = some (.inl s')) :
    (-2 ^ 31 ≤ s.offset + ret ∧ s.offset + ret < 2 ^ 31) ∧
      s' = ⟨s.calls + 1, s.offset + ret, s.log ++ [transfer]⟩ := by
  rw [Sending.next] at h
  split at h
  · rename_i hrange
    cases h
    exact ⟨hrange, rfl⟩
  · cases h

theorem next_ne_leave {ret : Int} {transfer : Transfer} {done : SendDone} :
    s.next ret transfer ≠ some (.inr done) := by
  rw [Sending.next]
  split <;> simp

/-- An iteration that goes on has had an answer that does not end the loop. -/
theorem sendTurn_next {s' : Sending} (h : sendTurn sendBuffer results s = some (.inl s')) :
    (∃ count bytes, s.next count (.accepted bytes) = some (.inl s')) ∨
      s.next (-1) .error = some (.inl s') := by
  rw [sendTurn] at h
  split at h
  · cases h
  · cases hresult : results s.calls with
    | sent count =>
        rw [hresult] at h
        obtain ⟨bytes, -, hnext⟩ := Option.bind_eq_some_iff.mp h
        exact .inl ⟨count, bytes, hnext⟩
    | failed =>
        rw [hresult] at h
        exact .inr h
    | closed | wouldBlock =>
        rw [hresult] at h
        cases h

/-- One that leaves takes `offset` bytes off. -/
theorem sendTurn_leave {done : SendDone} (h : sendTurn sendBuffer results s = some (.inr done)) :
    ∃ closes, s.leave sendBuffer closes = some (.inr done) := by
  rw [sendTurn] at h
  split at h
  · exact ⟨false, h⟩
  · cases hresult : results s.calls with
    | sent count =>
        rw [hresult] at h
        obtain ⟨bytes, -, hnext⟩ := Option.bind_eq_some_iff.mp h
        exact absurd hnext next_ne_leave
    | failed =>
        rw [hresult] at h
        exact absurd h next_ne_leave
    | closed =>
        rw [hresult] at h
        exact ⟨true, h⟩
    | wouldBlock =>
        rw [hresult] at h
        exact ⟨false, h⟩

theorem OffTrack.next {s' : Sending} (h : OffTrack sendBuffer s)
    (hturn : sendTurn sendBuffer results s = some (.inl s')) : OffTrack sendBuffer s' := by
  rcases sendTurn_next hturn with ⟨count, bytes, hnext⟩ | hnext
  · obtain ⟨-, rfl⟩ := next_eq hnext
    exact ⟨List.mem_append_left _ h.error, .inl (.of_accepted h.error bytes)⟩
  · obtain ⟨⟨hlow, -⟩, rfl⟩ := next_eq hnext
    refine ⟨List.mem_append_left _ h.error, h.behind.imp (·.concat _) ?_⟩
    rintro ⟨-, hless, hshort, hbounded⟩
    have hsame : accepted (s.log ++ [.error]) = accepted s.log := by
      rw [accepted_concat]
      exact List.append_nil _
    show _ ∧ _ < ((accepted (s.log ++ [.error])).length : Int) ∧ _ ∧ _
    rw [hsame]
    exact ⟨hlow, by show s.offset + -1 < _; omega, hshort, hbounded⟩

/-- What is taken off the buffer is not what was accepted. A negative `offset` stands for
more bytes than `int` can count. -/
theorem OffTrack.leave {done : SendDone} (h : OffTrack sendBuffer s)
    (hturn : sendTurn sendBuffer results s = some (.inr done)) : ¬ done.Exact sendBuffer := by
  obtain ⟨closes, hleave⟩ := sendTurn_leave hturn
  cases hleave
  rintro ⟨hcontent, hquiet⟩
  rcases h.behind with hspoiled | ⟨hlow, hless, hshort, hbounded⟩
  · exact hquiet hspoiled
  · have hrest : (sendBuffer.remove 0 (toSizeT s.offset) sendBuffer.zero_le_size).content =
        sendBuffer.content.drop (toSizeT s.offset) := by
      show _ ++ _ = _
      rw [List.take_zero, List.nil_append, Nat.zero_add]
    have hlength : (accepted s.log).length +
        (sendBuffer.content.length - toSizeT s.offset) = sendBuffer.content.length := by
      rw [← List.length_drop, ← hrest, ← List.length_append]
      exact congrArg List.length hcontent
    have hsize : sendBuffer.size = sendBuffer.content.length := rfl
    have hoffset : toSizeT s.offset = (s.offset % 2 ^ 64).toNat := rfl
    omega

/-- Behind an error there is no right end. -/
theorem OffTrack.not_sendsExactly {n : Nat} (h : OffTrack sendBuffer s)
    (hgoes : Goes (sendTurn sendBuffer results) n .start s) :
    ¬ SendsExactly sendBuffer results := by
  rintro ⟨fuel, done, hdone, hexact⟩
  -- with the fuel of the iterations up to the error added, the run is one from the error on
  have hmore : loop (sendTurn sendBuffer results) fuel s = some done := by
    rw [← hgoes fuel, Nat.add_comm]
    exact loop_mono hdone n
  exact loop_invariant (Q := fun done => ¬ done.Exact sendBuffer)
    (fun _ _ hs hturn => hs.next hturn) (fun _ _ hs hturn => hs.leave hturn) h hmore hexact

/-- The call that fails. -/
theorem Asked.not_sendsExactly_of_failed (h : Asked sendBuffer results counts)
    (hbounded : counts.sum < 2 ^ 31) (hfailed : results counts.length = .failed) :
    ¬ SendsExactly sendBuffer results := by
  obtain ⟨s, hgoes, hs⟩ := h.goes hbounded
  have hoffset := hs.offset
  have hshort := h.short
  have hsize : sendBuffer.size = sendBuffer.content.length := rfl
  have hturn := hs.turn results h.short
  rw [hfailed] at hturn
  have hnext : s.next (-1) .error =
      some (.inl ⟨s.calls + 1, s.offset + -1, s.log ++ [.error]⟩) := if_pos (by omega)
  have hlength : (accepted (s.log ++ [.error])).length = counts.sum := by
    rw [accepted_concat, List.length_append, hs.front, List.length_take]
    show min _ _ + 0 = _
    omega
  refine OffTrack.not_sendsExactly ⟨?_, .inr ?_⟩ (hgoes.trans (.next (hturn.trans hnext)))
  · exact List.mem_append_right _ (List.mem_singleton_self _)
  · rw [hlength]
    show _ ≤ s.offset + -1 ∧ s.offset + -1 < _ ∧ _
    omega

/-- A call that takes the bytes accepted past what `int` can count. -/
theorem Asked.not_sendsExactly_of_overflow (h : Asked sendBuffer results counts)
    (hbounded : counts.sum < 2 ^ 31) (hcount : results counts.length = .sent count)
    (hle : count ≤ sendBuffer.size - counts.sum) (hover : 2 ^ 31 ≤ counts.sum + count) :
    ¬ SendsExactly sendBuffer results := by
  rintro ⟨fuel, done, hdone, -⟩
  obtain ⟨s, hgoes, hs⟩ := h.goes hbounded
  have hshort := h.short
  have hturn := hs.turn results h.short
  rw [hcount] at hturn
  have hnone : sendTurn sendBuffer results s = none :=
    (hturn.trans (hs.sent (by omega))).trans (hs.overflow hover _)
  rw [onSend, (Undefined.of_goes hgoes (.fault hnone)) fuel] at hdone
  cases hdone

/-- Where `onSend` is right, `offset` can count the bytes at each call that is made. -/
theorem Asked.bounded_of_sendsExactly (hpromised : Promised sendBuffer results)
    (hright : SendsExactly sendBuffer results) (h : Asked sendBuffer results counts) :
    counts.sum < 2 ^ 31 := by
  induction counts using List.reverseRecOn with
  | nil => decide
  | append_singleton counts count ih =>
      obtain ⟨hinit, hcount⟩ := h.init
      rw [List.sum_append, List.sum_singleton]
      by_contra hover
      exact hinit.not_sendsExactly_of_overflow (ih hinit) hcount
        (hpromised counts count hinit hcount).2 (by omega) hright

/-- **The writes to a client.** `onSend` neither loses nor repeats a byte if and only if no
call of `send` that it makes fails with another `errno` than `EWOULDBLOCK`, or takes the
bytes accepted past what an `int` can count. `remove` copies the rest to the front of the buffer
with `memcpy`; where the ranges overlap it is read as `memmove`. -/
theorem onSend_exactly_iff (hpromised : Promised sendBuffer results) :
    SendsExactly sendBuffer results ↔ Unfailing sendBuffer results := by
  constructor
  · intro hright counts h
    have hbounded := h.bounded_of_sendsExactly hpromised hright
    refine ⟨fun hfailed => h.not_sendsExactly_of_failed hbounded hfailed hright, ?_⟩
    intro count hcount
    by_contra hover
    exact h.not_sendsExactly_of_overflow hbounded hcount
      (hpromised counts count h hcount).2 (by omega) hright
  · exact sendsExactly_of_unfailing hpromised

theorem onSend_exactly_iff_partial :
    SendsExactly ⟨[1, 2, 3], 3, by decide⟩ (fun k => if k = 0 then .sent 2 else .wouldBlock) ↔
      Unfailing ⟨[1, 2, 3], 3, by decide⟩
        (fun k => if k = 0 then .sent 2 else .wouldBlock) := by
  refine onSend_exactly_iff fun counts count _ hcount => ?_
  split at hcount
  · rename_i hempty
    cases hcount
    rw [List.length_eq_zero_iff.mp hempty]
    decide
  · cases hcount

/-- A byte is left in the buffer that was sent. -/
example : (onSend 3 ⟨[1, 2, 3], 3, by decide⟩
    fun k => if k = 0 then .sent 2 else if k = 1 then .failed else .wouldBlock).map
      (fun done => (accepted done.log, done.sendBuffer.content)) =
    some ([1, 2], [2, 3]) := by decide

/-! ## The descriptor behind an error

`happenError` closes the descriptor, so each further call of `send` is one on −1, and fails.
-/

/-- From here on every call fails. -/
structure Failing (sendBuffer : Bytes) (results : Nat → SendResult) (s : Sending) : Prop where
  failing : ∀ k, s.calls ≤ k → results k = .failed
  low : -2 ^ 31 ≤ s.offset
  less : s.offset < sendBuffer.size

theorem Failing.turn (h : Failing sendBuffer results s)
    (hsize : sendBuffer.size < 2 ^ 64 - 2 ^ 31) :
    sendTurn sendBuffer results s = s.next (-1) .error := by
  have hlow := h.low
  have hless := h.less
  have hoffset : toSizeT s.offset = (s.offset % 2 ^ 64).toNat := rfl
  rw [sendTurn, if_neg (by omega), h.failing s.calls le_rfl, Sending.answered]

/-- `offset` is counted down until it overflows. -/
theorem Failing.undefined (h : Failing sendBuffer results s)
    (hsize : sendBuffer.size < 2 ^ 64 - 2 ^ 31) : Undefined (sendTurn sendBuffer results) s := by
  intro fuel
  cases hloop : loop (sendTurn sendBuffer results) fuel s with
  | none => rfl
  | some done =>
      refine False.elim (loop_invariant (Q := fun _ => False) ?_ ?_ h hloop)
      · intro s s' hs hturn
        obtain ⟨⟨hlow, -⟩, rfl⟩ := next_eq ((hs.turn hsize).symm.trans hturn)
        refine ⟨fun k hk => hs.failing k (Nat.le_of_succ_le hk), hlow, ?_⟩
        have hless := hs.less
        show s.offset + -1 < _
        omega
      · intro s done hs hturn
        exact next_ne_leave ((hs.turn hsize).symm.trans hturn)

/-- **The end of a connection.** When a call fails and all behind it do, `onSend` has no
result. -/
theorem Asked.undefined_of_failing (h : Asked sendBuffer results counts)
    (hbounded : counts.sum < 2 ^ 31) (hsize : sendBuffer.size < 2 ^ 64 - 2 ^ 31)
    (hfailing : ∀ k, counts.length ≤ k → results k = .failed) (fuel : Nat) :
    onSend fuel sendBuffer results = none := by
  obtain ⟨s, hgoes, hs⟩ := h.goes hbounded
  have hoffset := hs.offset
  have hshort := h.short
  have hend : Failing sendBuffer results s := by
    refine ⟨?_, by omega, by omega⟩
    rw [hs.calls]
    exact hfailing
  exact (Undefined.of_goes hgoes (hend.undefined hsize)) fuel

/-- The peer resets the connection behind the first two bytes. -/
theorem onSend_never_ends :
    (∀ fuel, onSend fuel ⟨[1, 2, 3], 3, by decide⟩
      (fun k => if k = 0 then .sent 2 else .failed) = none) ∧
    ¬ SendsExactly ⟨[1, 2, 3], 3, by decide⟩ (fun k => if k = 0 then .sent 2 else .failed) := by
  have hasked : Asked ⟨[1, 2, 3], 3, by decide⟩
      (fun k => if k = 0 then .sent 2 else .failed) [2] := ⟨by decide, by decide⟩
  have hnone := hasked.undefined_of_failing (by decide) (by decide)
    (fun k hk => if_neg (by rw [List.length_singleton] at hk; omega))
  refine ⟨hnone, ?_⟩
  rintro ⟨fuel, done, hdone, -⟩
  rw [hnone] at hdone
  cases hdone

/-! ## The handler of the server -/

/-- The answers of one `onSend`, call by call. -/
def Sent.answer : Sent → Nat → SendResult
  | .sent count _, 0 => .sent count
  | .sent _ more, k + 1 => more.answer k
  | .wouldBlock, _ => .wouldBlock
  | .closed, _ => .closed
  | .failed, _ => .failed

/-- Where the loop has seen an error, it has seen it at its end. -/
theorem error_mem_of_loop {fuel : Nat} {done : SendDone} (h : .error ∈ s.log)
    (hloop : loop (sendTurn sendBuffer results) fuel s = some done) : .error ∈ done.log := by
  refine loop_invariant (P := fun s => .error ∈ s.log) (Q := fun done => .error ∈ done.log)
    ?_ ?_ h hloop
  · intro s s' hs hturn
    rcases sendTurn_next hturn with ⟨count, bytes, hnext⟩ | hnext
    · obtain ⟨-, rfl⟩ := next_eq hnext
      exact List.mem_append_left _ hs
    · obtain ⟨-, rfl⟩ := next_eq hnext
      exact List.mem_append_left _ hs
  · intro s done hs hturn
    obtain ⟨closes, hleave⟩ := sendTurn_leave hturn
    cases hleave
    exact hs

namespace ReactorServer

variable {srv : ReactorServer} {p : Ptr} {c : KVTcpClient} {offset : Nat} {done : SendDone}

/-- What the handler does behind its loop. -/
def SendsOff (srv : ReactorServer) (p : Ptr) (c : KVTcpClient) (done : SendDone)
    (r : ReactorServer × Ending) : Prop :=
  ∃ objects : Heap KVTcpClient,
    objects.cell = update srv.objects.cell p (some { c with sendBuffer := done.sendBuffer }) ∧
    r = let r := { srv with objects := objects }.sendImp p
        if done.closes then andThen r fun srv => srv.onClose p else r

theorem leave_of_loop {closes : Bool} {fuel : Nat}
    (hturn : sendTurn sendBuffer results s = s.leave sendBuffer closes)
    (hloop : loop (sendTurn sendBuffer results) fuel s = some done) :
    ⟨sendBuffer.remove 0 (toSizeT s.offset) sendBuffer.zero_le_size, closes, s.log⟩ = done := by
  cases fuel with
  | zero => cases hloop
  | succ fuel =>
      rw [loop_leave (a := ⟨_, closes, s.log⟩) hturn] at hloop
      exact Option.some.inj hloop

theorem sendsOff_done (hc : srv.objects.cell p = some c) (log : List Transfer) :
    SendsOff srv p c ⟨c.sendBuffer.remove 0 offset (Nat.zero_le _), false, log⟩
      (srv.sendDone p offset) := by
  obtain ⟨objects, hstore, hcell⟩ := store_eq hc
    { c with sendBuffer := c.sendBuffer.remove 0 offset (Nat.zero_le _) }
  refine ⟨objects, hcell, ?_⟩
  rw [sendDone, removeSent, deref_eq hc, hstore]
  rfl

theorem sendsOff_close (hc : srv.objects.cell p = some c) (log : List Transfer) :
    SendsOff srv p c ⟨c.sendBuffer.remove 0 offset (Nat.zero_le _), true, log⟩
      (andThen (srv.sendDone p offset) fun srv => srv.onClose p) := by
  obtain ⟨objects, hcell, heq⟩ := sendsOff_done hc log
  exact ⟨objects, hcell, by rw [heq]; rfl⟩

theorem onSendFrom_exhausted (hc : srv.objects.cell p = some c)
    (hall : c.sendBuffer.size = offset) (answer : Sent) :
    srv.onSendFrom p offset answer = srv.sendDone p offset := by
  cases answer <;> rw [onSendFrom, sendLoop, deref_eq hc, if_pos hall]

theorem onSendFrom_asked (hc : srv.objects.cell p = some c)
    (hleft : c.sendBuffer.size ≠ offset) (answer : Sent) :
    srv.onSendFrom p offset answer = match answer with
      | .sent count more => srv.onSendFrom p (offset + count) more
      | .wouldBlock => srv.sendDone p offset
      | .closed => andThen (srv.sendDone p offset) fun srv => srv.onClose p
      | .failed => andThen (srv.happenError p) fun srv => (srv, .undefined) := by
  cases answer <;> rw [onSendFrom, sendLoop, deref_eq hc, if_neg hleft]

/-- The handler goes through the answers as the loop does, while none is an error. -/
theorem onSendFrom_done (hc : srv.objects.cell p = some c) {answer : Sent} {fuel : Nat}
    (hoffset : s.offset = (offset : Int)) (hbounded : offset < 2 ^ 31)
    (hanswer : ∀ k, results (s.calls + k) = answer.answer k)
    (hloop : loop (sendTurn c.sendBuffer results) fuel s = some done)
    (hclear : .error ∉ done.log) : SendsOff srv p c done (srv.onSendFrom p offset answer) := by
  induction fuel generalizing s offset answer with
  | zero => cases hloop
  | succ fuel ih =>
      have hsize : toSizeT s.offset = offset := by
        rw [hoffset, toSizeT]
        omega
      by_cases hall : c.sendBuffer.size = offset
      · have hturn : sendTurn c.sendBuffer results s = s.leave c.sendBuffer false := by
          rw [sendTurn, hsize, if_pos hall]
        rw [onSendFrom_exhausted hc hall, ← leave_of_loop hturn hloop, hsize]
        exact sendsOff_done hc s.log
      have hturn : sendTurn c.sendBuffer results s =
          s.answered c.sendBuffer (answer.answer 0) := by
        rw [sendTurn, hsize, if_neg hall, ← hanswer 0, Nat.add_zero]
      rw [onSendFrom_asked hc hall]
      cases answer with
      | sent count more =>
          rcases loop_cases hloop with ⟨s', hnext, hloop'⟩ | hleave
          · obtain ⟨bytes, -, hnext'⟩ := Option.bind_eq_some_iff.mp (hturn.symm.trans hnext)
            obtain ⟨⟨-, hhigh⟩, rfl⟩ := next_eq hnext'
            refine ih ?_ (by omega) ?_ hloop'
            · show s.offset + count = _
              rw [hoffset]
              rfl
            · intro k
              show results (s.calls + 1 + k) = _
              rw [Nat.add_assoc, Nat.add_comm 1 k, hanswer (k + 1)]
              rfl
          · obtain ⟨bytes, -, hnext⟩ := Option.bind_eq_some_iff.mp (hturn.symm.trans hleave)
            exact absurd hnext next_ne_leave
      | wouldBlock =>
          rw [← leave_of_loop hturn hloop, hsize]
          exact sendsOff_done hc s.log
      | closed =>
          rw [← leave_of_loop hturn hloop, hsize]
          exact sendsOff_close hc s.log
      | failed =>
          -- the error stays in the log
          rcases loop_cases hloop with ⟨s', hnext, hloop'⟩ | hleave
          · obtain ⟨-, rfl⟩ := next_eq (hturn.symm.trans hnext)
            have herror : Transfer.error ∈ s.log ++ [.error] := by simp
            exact absurd (error_mem_of_loop herror hloop') hclear
          · exact absurd (hturn.symm.trans hleave) next_ne_leave

/-- What `onSend` does with the object is what its loop comes to: the buffer is the one of
the loop, `sendImp` is called, and `onClose` when the peer has closed. -/
theorem onSend_done (hc : srv.objects.cell p = some c) {answer : Sent} {fuel : Nat}
    (hdone : KvStore.onSend fuel c.sendBuffer answer.answer = some done)
    (hclear : .error ∉ done.log) : SendsOff srv p c done (srv.onSend p answer) := by
  refine onSendFrom_done hc rfl (by decide) (fun k => ?_) hdone hclear
  show answer.answer (0 + k) = _
  rw [Nat.zero_add]

end ReactorServer

end LearnSpace.KvStore
