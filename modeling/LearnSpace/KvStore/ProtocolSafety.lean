import LearnSpace.KvStore.ProtocolCursor

/-!
# When the parser stays inside its message

The bytes behind the size of a message are not part of it, even where the
buffer has them. `StaysInside` says that a run of `analysis` does not need
them, that `size` does not wrap, and that the loop ends with a count inside
the message. It does so just when no header makes `currentPos` run past the
end of what is left, and no header overruns its own buffer.
-/

namespace LearnSpace.KvStore

open Keel

variable {ε : Type}

/-- A run of `analysis` on a message: no iteration reads behind the size,
`size` never wraps, and the loop ends, with a count inside the message unless
`getCommand` has not returned. -/
structure StaysInside (g : Bytes → Except ε Unit) (msgData : Bytes) : Prop where
  reads : ∀ k, (analysisLoop msgData.memory g).Visits (.start msgData.size) k →
    iteration msgData.content g k ≠ .error .outside
  noWrap : ∀ k line, (analysisLoop msgData.memory g).Visits (.start msgData.size) k →
    k.currentPos < k.size → getLine (ε := ε) msgData.memory k.data k.size = .ok (some line) →
    k.currentPos + (line.size + 2) ≤ k.size
  ends : (∃ r, analysis g msgData = .ok r ∧ r.dissipativeSize ≤ msgData.size) ∨
    ∃ e, analysis g msgData = .error (.command e)

/-- At this place no header makes `size` wrap or overruns its buffer. -/
def HeaderFits (msg : List Byte) (d c : Nat) : Prop :=
  ∀ ℓ, c < msg.length - d → lineAt msg d = some ℓ →
    d + (c + (ℓ + 2)) ≤ msg.length ∧ (numberAt msg d ℓ).isSome

variable {msg : List Byte} {g : Bytes → Except ε Unit} {k : Cursor}

/-- The outcomes of one iteration that are inside the message. -/
inductive InsideOutcome (msg : List Byte) (g : Bytes → Except ε Unit) :
    Except (ParseFault ε) (Cursor ⊕ Analysis) → Prop
  | leaves (a) : a.dissipativeSize ≤ msg.length → InsideOutcome msg g (.ok (.inr a))
  | command (e) : InsideOutcome msg g (.error (.command e))
  | goesOn (k') : AtHead msg g k' → InsideOutcome msg g (.ok (.inl k'))

/-- One iteration at a head that fits ends inside the message, and the bytes
behind the message have no part in it. -/
theorem iteration_atHead (hk : AtHead msg g k) (hfits : HeaderFits msg k.data k.currentPos) :
    ∃ r, (∀ zs, iteration (msg ++ zs) g k = r) ∧ InsideOutcome msg g r := by
  obtain ⟨c, d, size, cs⟩ := k
  obtain ⟨hhead, hsize⟩ := hk
  dsimp only at hhead hsize hfits
  subst hsize
  have hbounds := hhead.bounds
  by_cases hc : c < msg.length - d
  · cases hline : lineAt msg d with
    | none => exact ⟨_, fun zs => iteration_noLine hc hline, .leaves _ hbounds.2⟩
    | some ℓ =>
        obtain ⟨hd, hnumber⟩ := hfits ℓ hc hline
        obtain ⟨len, hlen⟩ := Option.isSome_iff_exists.mp hnumber
        -- a header that fits lets `size` not wrap
        have hsub : sub64 (msg.length - d) (c + (ℓ + 2)) = msg.length - (d + (c + (ℓ + 2))) := by
          rw [sub64, if_pos (by omega), Nat.sub_sub]
        by_cases hshort : sub64 (msg.length - d) (c + (ℓ + 2)) < toSizeT len
        · refine ⟨_, fun zs => iteration_break hc hline hlen hshort, .leaves _ ?_⟩
          show c + (ℓ + 2) ≤ msg.length
          omega
        · rw [hsub, Nat.not_lt] at hshort
          refine ⟨_, fun zs => iteration_command hc hline hlen hd hshort, ?_⟩
          cases hg : g (Bytes.new.append (bodyAt msg (d + (c + (ℓ + 2))) (toSizeT len))) with
          | error e => exact .command e
          | ok u => exact .goesOn _ ⟨hhead.next hc hline hlen hd hshort hg, rfl⟩
  · exact ⟨_, fun zs => iteration_leave hc, .leaves _ hbounds.2⟩

section

variable {msgData : Bytes}

/-- Every header the parser comes to fits. -/
def HeadersFit (g : Bytes → Except ε Unit) (msg : List Byte) : Prop :=
  ∀ d c, Head msg (Returns g) d c → HeaderFits msg d c

theorem HeadersFit.iteration (hfits : HeadersFit g msgData.content)
    (hk : AtHead msgData.content g k) :
    InsideOutcome msgData.content g (iteration msgData.memory g k) ∧
      iteration msgData.content g k = iteration msgData.memory g k := by
  obtain ⟨r, hr, hinside⟩ := iteration_atHead hk (hfits _ _ hk.1)
  rw [msgData.memory_eq, hr, ← hr [], List.append_nil]
  rw [← hr [], List.append_nil] at hinside
  exact ⟨hinside, rfl⟩

/-- Then every state the loop visits is at a head. -/
theorem HeadersFit.visited (hfits : HeadersFit g msgData.content)
    (hk : (analysisLoop msgData.memory g).Visits (.start msgData.size) k) :
    AtHead msgData.content g k := by
  refine hk.invariant ⟨.first, rfl⟩ (fun t t' ht hbody => ?_)
  have hinside := (hfits.iteration ht).1
  rw [← analysisLoop_body, hbody] at hinside
  cases hinside with
  | goesOn _ h => exact h

/-- A header that makes `size` wrap or overruns its buffer is one the loop
comes to, so the parser does not stay inside. -/
theorem StaysInside.headersFit (h : StaysInside g msgData) : HeadersFit g msgData.content := by
  have hmem := msgData.memory_eq
  intro d c hhead ℓ hc hline
  obtain ⟨cs, hvisits⟩ := hhead.visits (List.replicate (msgData.capacity - msgData.size) 0)
  rw [← hmem] at hvisits
  constructor
  · have hline' : getLine (ε := ε) msgData.memory d (msgData.content.length - d)
        = .ok (some (Bytes.new.append ((msgData.content.drop d).take ℓ))) := by
      rw [hmem, getLine_eq (by omega), hline]
      rfl
    have := h.noWrap _ _ hvisits hc hline'
    rw [size_header hline] at this
    dsimp only at this
    omega
  · cases hnumber : numberAt msgData.content d ℓ with
    | some len => rfl
    | none =>
        have hfault : LearnSpace.KvStore.iteration msgData.memory g
            ⟨c, d, msgData.content.length - d, cs⟩ = .error .header := by
          rw [hmem]
          exact iteration_header hc hline hnumber
        have hrun : analysis g msgData = .error .header :=
          hvisits.run_eq.symm.trans (While.run_fault hfault)
        rcases h.ends with ⟨r, hr, _⟩ | ⟨e, he⟩
        · rw [hrun] at hr; cases hr
        · rw [hrun] at he; cases he

/-- When every header fits, `size` is what is left behind `data` throughout,
and the last iteration ends the run. -/
theorem HeadersFit.staysInside (hfits : HeadersFit g msgData.content) :
    StaysInside g msgData := by
  refine ⟨?_, ?_, ?_⟩
  · intro k hk
    obtain ⟨hinside, heq⟩ := hfits.iteration (hfits.visited hk)
    rw [heq]
    intro hout
    rw [hout] at hinside
    cases hinside
  · intro k line hk hc hline'
    obtain ⟨hhead, hsize⟩ := hfits.visited hk
    rw [hsize] at hc hline' ⊢
    rw [msgData.memory_eq, getLine_eq (by omega)] at hline'
    cases hline : lineAt msgData.content k.data with
    | none => rw [hline] at hline'; cases hline'
    | some ℓ =>
        rw [hline] at hline'
        cases hline'
        have := (hfits _ _ hhead ℓ hc hline).1
        rw [size_header hline]
        omega
  · obtain ⟨t, hvisits, hstop⟩ :=
      (analysisLoop msgData.memory g).run_stop (.start msgData.size)
    have hinside := (hfits.iteration (hfits.visited hvisits)).1
    rcases hstop with ⟨e, hbody, hrun⟩ | ⟨a, hbody, hrun⟩
    · rw [← analysisLoop_body, hbody] at hinside
      cases hinside with
      | command e => exact .inr ⟨e, hrun⟩
    · rw [← analysisLoop_body, hbody] at hinside
      cases hinside with
      | leaves _ ha => exact .inl ⟨a, hrun, ha⟩

end

/-- **Inside the message.** For every message and every `getCommand`, the
parser stays inside the message if and only if every header it comes to fits. -/
theorem staysInside_iff (g : Bytes → Except ε Unit) (msgData : Bytes) :
    StaysInside g msgData ↔ HeadersFit g msgData.content :=
  ⟨StaysInside.headersFit, HeadersFit.staysInside⟩

/-- Two commands of three bytes in one message, `"3\r\nGet3\r\nGet"`: at the
second header `currentPos` is 12 and 9 bytes are left. -/
theorem two_commands_leave_message :
    ¬ StaysInside getCommand
      (Bytes.new.append [51, 13, 10, 71, 101, 116, 51, 13, 10, 71, 101, 116]) := by
  intro h
  have hrun : analysis getCommand
      (Bytes.new.append [51, 13, 10, 71, 101, 116, 51, 13, 10, 71, 101, 116])
        = .error .outside := by
    decide +kernel
  rcases h.ends with ⟨r, hr, _⟩ | ⟨e, he⟩
  · rw [hrun] at hr; cases hr
  · rw [hrun] at he; cases he

end LearnSpace.KvStore
