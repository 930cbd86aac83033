import LearnSpace.KvStore.ProtocolCommand

/-!
# When the parser returns

`analysis` returns when at every header it comes to it either waits for more
bytes or finds a command that lets `getCommand` return. In particular it never
returns after `size` has wrapped, unless the number of that very header is
larger still: it goes on to look for a line behind the message, where there
are only zeros, and runs off the buffer.
-/

namespace LearnSpace.KvStore

open Keel

/-- At this place the parser waits for more bytes, or finds a command that
`getCommand` returns from. -/
def HeaderReturns (msg : List Byte) (d c : Nat) : Prop :=
  ∀ ℓ, c < msg.length - d → lineAt msg d = some ℓ → ∃ len, numberAt msg d ℓ = some len ∧
    (sub64 (msg.length - d) (c + (ℓ + 2)) < toSizeT len ∨
      (d + (c + (ℓ + 2)) ≤ msg.length ∧ toSizeT len ≤ msg.length - (d + (c + (ℓ + 2))) ∧
        Benign (bodyAt msg (d + (c + (ℓ + 2))) (toSizeT len))))

variable {ε : Type} {msg zs : List Byte} {g : Bytes → Except ε Unit} {c d ℓ : Nat}
variable {cs : List (List Byte)}

theorem returns_eq_benign : Returns getCommand = Benign :=
  funext fun body => propext (getCommand_returns_iff body)

/-- When the parser returns, it does so at every header on its way. -/
theorem headerReturns_of_run {r : Analysis} (hzs : (13 : Byte) ∉ zs)
    (hcap : (msg ++ zs).length < 2 ^ 62) (hhead : Head msg Benign d c)
    (hrun : (analysisLoop (msg ++ zs) getCommand).run (.start msg.length) = .ok r) :
    HeaderReturns msg d c := by
  rw [← returns_eq_benign] at hhead
  obtain ⟨cs, hvisits⟩ := hhead.visits zs
  rw [← hvisits.run_eq] at hrun
  intro ℓ hc hline
  cases hnumber : numberAt msg d ℓ with
  | none =>
      rw [While.run_fault (iteration_header hc hline hnumber)] at hrun
      cases hrun
  | some len =>
      refine ⟨len, rfl, ?_⟩
      by_cases hlen : sub64 (msg.length - d) (c + (ℓ + 2)) < toSizeT len
      · exact .inl hlen
      · by_cases hd : d + (c + (ℓ + 2)) ≤ msg.length
        · have hlen' : toSizeT len ≤ msg.length - (d + (c + (ℓ + 2))) := by
            rw [sub64, if_pos (by omega)] at hlen
            omega
          refine .inr ⟨hd, hlen', ?_⟩
          rw [← returns_eq_benign, Returns]
          have hiter : iteration (msg ++ zs) getCommand ⟨c, d, msg.length - d, cs⟩ = _ :=
            iteration_command hc hline hnumber hd hlen'
          cases hg : getCommand
              (Bytes.new.append (bodyAt msg (d + (c + (ℓ + 2))) (toSizeT len))) with
          | ok u => rfl
          | error e =>
              rw [hg] at hiter
              rw [While.run_fault hiter] at hrun
              cases hrun
        · exfalso
          rcases While.run_ok hrun with hleave | ⟨k', hnext, hrun'⟩
          · exact iteration_noBreak hc hline hnumber hlen r hleave
          · obtain ⟨-, ℓ', _, _, hline', -, -, -, hk'⟩ := iteration_inv hnext
            have hwrap : msg.length < k'.data := by
              have heq : ℓ = ℓ' := Option.some.inj (hline.symm.trans hline')
              rw [hk', ← heq]
              exact Nat.lt_of_not_le hd
            rw [run_wrapped hzs hcap hnext hwrap] at hrun'
            cases hrun'

/-- One iteration at a header where the parser returns does not fail. -/
theorem iteration_returns {k : Cursor} (hk : AtHead msg getCommand k)
    (hreturns : HeaderReturns msg k.data k.currentPos) (zs : List Byte) :
    (∃ a, iteration (msg ++ zs) getCommand k = .ok (.inr a)) ∨
      ∃ k', AtHead msg getCommand k' ∧ iteration (msg ++ zs) getCommand k = .ok (.inl k') := by
  obtain ⟨c, d, size, cs⟩ := k
  obtain ⟨hhead, hsize⟩ := hk
  dsimp only at hhead hsize hreturns
  subst hsize
  by_cases hc : c < msg.length - d
  · cases hline : lineAt msg d with
    | none => exact .inl ⟨_, iteration_noLine hc hline⟩
    | some ℓ =>
        obtain ⟨len, hnumber, hshort | ⟨hd, hlen, hbenign⟩⟩ := hreturns ℓ hc hline
        · exact .inl ⟨_, iteration_break hc hline hnumber hshort⟩
        · rw [← returns_eq_benign] at hbenign
          exact .inr ⟨_, ⟨hhead.next hc hline hnumber hd hlen hbenign, rfl⟩,
            iteration_goOn hc hline hnumber hd hlen hbenign⟩
  · exact .inl ⟨_, iteration_leave hc⟩

/-- **When the parser returns.** Whatever the receive buffer holds, `analysis`
returns if and only if at every header it comes to it waits for more bytes or
finds a command that `getCommand` returns from. -/
theorem analysis_returns_iff (msgData : Bytes) (hcap : msgData.capacity < 2 ^ 62) :
    (∃ r, analysis getCommand msgData = .ok r) ↔
      ∀ d c, Head msgData.content Benign d c → HeaderReturns msgData.content d c := by
  have hmem := msgData.memory_eq
  constructor
  · rintro ⟨r, hrun⟩ d c hhead
    rw [analysis, hmem] at hrun
    refine headerReturns_of_run (cr_notMem_zeros _) ?_ hhead hrun
    rw [← hmem, msgData.length_memory]
    exact hcap
  · intro hreturns
    cases hrun : analysis getCommand msgData with
    | ok r => exact ⟨r, rfl⟩
    | error e =>
        rw [analysis, hmem] at hrun
        obtain ⟨t, hvisits, hfault⟩ := While.exists_fault hrun
        rw [← returns_eq_benign] at hreturns
        have hat : AtHead msgData.content getCommand t := by
          refine hvisits.invariant ⟨.first, rfl⟩ (fun s s' hs hbody => ?_)
          rcases iteration_returns hs (hreturns _ _ hs.1) _ with ⟨a, h⟩ | ⟨k', hk', h⟩
          · rw [← analysisLoop_body, hbody] at h
            cases h
          · rw [← analysisLoop_body, hbody] at h
            cases h
            exact hk'
        -- the iteration that fails would have to return
        rcases iteration_returns hat (hreturns _ _ hat.1) _ with ⟨a, h⟩ | ⟨k', _, h⟩ <;>
          · rw [← analysisLoop_body, hfault] at h
            cases h

/-- A message with an unknown command, `"5\r\nFoo\r\n"`. -/
theorem analysis_returns_iff_foo :
    (∃ r, analysis getCommand (Bytes.new.append [53, 13, 10, 70, 111, 111, 13, 10]) = .ok r) ↔
      ∀ d c, Head [53, 13, 10, 70, 111, 111, 13, 10] Benign d c →
        HeaderReturns [53, 13, 10, 70, 111, 111, 13, 10] d c :=
  analysis_returns_iff _ (by decide)

/-- `"5\r\nGet\r\n"`: a `Get` without a key throws `std::out_of_range`. -/
theorem get_without_key_throws :
    analysis getCommand (Bytes.new.append [53, 13, 10, 71, 101, 116, 13, 10])
      = .error (.command .outOfRange) := by
  decide +kernel

end LearnSpace.KvStore
