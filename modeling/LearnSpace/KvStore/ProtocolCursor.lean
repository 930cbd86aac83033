import LearnSpace.KvStore.Protocol

/-!
# Where the parser reads its headers

`size` is what is left of the message behind `data`, as long as it has not
wrapped. In such a state one iteration is described by the first line behind
`data` and by its number (`iteration_leave`, `iteration_noLine`,
`iteration_header`, `iteration_break`, `iteration_command`), on any memory
that begins with the message.

An iteration moves `data` by all of `currentPos`, not by the line it has read.
`Head` is that arithmetic on the message alone: the places at which a header
is looked for, as long as every earlier one left `size` at or above zero. The
parser stays inside its message just when no such place makes it wrap.
-/

namespace LearnSpace.KvStore

open Keel

/-- The length of the first line behind `d`. -/
def lineAt (msg : List Byte) (d : Nat) : Option Nat := firstOcc crlf (msg.drop d)

/-- The number in the first `ℓ` bytes behind `d`, as `atoi` reads it from the
buffer of the header. -/
def numberAt (msg : List Byte) (d ℓ : Nat) : Option Int :=
  atoi (Bytes.new.append ((msg.drop d).take ℓ)).memory

/-- `len` bytes of the message from `d` on. -/
def bodyAt (msg : List Byte) (d len : Nat) : List Byte := (msg.drop d).take len

/-- `getCommand` returns when it gets these bytes in a fresh array. -/
def Returns {ε : Type} (g : Bytes → Except ε Unit) (body : List Byte) : Prop :=
  g (Bytes.new.append body) = .ok ()

section

variable {ε : Type} {msg zs : List Byte} {g : Bytes → Except ε Unit} {c d ℓ : Nat}
variable {cs : List (List Byte)}

theorem lineAt_le (hline : lineAt msg d = some ℓ) : ℓ + 2 ≤ msg.length - d := by
  have := firstOcc_le hline
  rwa [List.length_drop] at this

/-! ## One iteration inside the message -/

/-- `getLine` finds the first line of what is left. -/
theorem getLine_eq (hc : 0 < msg.length - d) :
    getLine (ε := ε) (msg ++ zs) d (msg.length - d)
      = .ok ((lineAt msg d).map (fun ℓ => Bytes.new.append ((msg.drop d).take ℓ))) := by
  have hdrop : (msg ++ zs).drop d = msg.drop d ++ zs :=
    List.drop_append_of_le_length (by omega)
  have hsub : sub64 (msg.length - d) 1 = msg.length - d - 1 := if_pos hc
  have hlen : msg.length - d - 1 + crlf.length = (msg.drop d).length + 1 := by
    rw [List.length_drop]
    show msg.length - d - 1 + 2 = _
    omega
  have hscan : scan crlf (msg.drop d ++ zs) (msg.length - d - 1) = some (lineAt msg d) :=
    scan_eq (by decide) hlen
  rw [getLine, hdrop, hsub, hscan]
  cases hline : lineAt msg d with
  | none => rfl
  | some i =>
      have hi : i ≤ (msg.drop d).length := by
        have := lineAt_le hline
        rw [List.length_drop]
        omega
      simp only [Option.map_some, List.take_append_of_le_length hi]

/-- The header of a line of `ℓ` bytes has `ℓ` bytes. -/
theorem size_header (hline : lineAt msg d = some ℓ) :
    (Bytes.new.append ((msg.drop d).take ℓ)).size = ℓ := by
  have := lineAt_le hline
  show ([] ++ (msg.drop d).take ℓ).length = ℓ
  rw [List.nil_append, List.length_take, List.length_drop]
  omega

theorem iteration_leave (hc : ¬ c < msg.length - d) :
    iteration (msg ++ zs) g ⟨c, d, msg.length - d, cs⟩ = .ok (.inr ⟨cs, c⟩) :=
  if_pos hc

theorem iteration_noLine (hc : c < msg.length - d) (hline : lineAt msg d = none) :
    iteration (msg ++ zs) g ⟨c, d, msg.length - d, cs⟩ = .ok (.inr ⟨cs, c⟩) := by
  have hpos : 0 < msg.length - d := by omega
  rw [iteration, if_neg (not_not_intro hc), getLine_eq hpos, hline]
  rfl

/-- The part of an iteration behind a header of `ℓ` bytes. -/
theorem iteration_line (hc : c < msg.length - d) (hline : lineAt msg d = some ℓ) :
    iteration (msg ++ zs) g ⟨c, d, msg.length - d, cs⟩ =
      match numberAt msg d ℓ with
      | none => .error .header
      | some len =>
        if sub64 (msg.length - d) (c + (ℓ + 2)) < toSizeT len then
          .ok (.inr ⟨cs, c + (ℓ + 2)⟩)
        else
          match readCommand (msg ++ zs) (d + (c + (ℓ + 2))) (toSizeT len) with
          | .error e => .error e
          | .ok command =>
            match g command with
            | .error e => .error (.command e)
            | .ok () =>
              .ok (.inl ⟨c + (ℓ + 2) + toSizeT len, d + (c + (ℓ + 2)),
                sub64 (msg.length - d) (c + (ℓ + 2)), cs ++ [command.content]⟩) := by
  have hpos : 0 < msg.length - d := by omega
  rw [iteration, if_neg (not_not_intro hc), getLine_eq hpos, hline, numberAt]
  simp only [Option.map_some, size_header hline, bind, Except.bind, pure, Except.pure]
  cases atoi (Bytes.new.append ((msg.drop d).take ℓ)).memory with
  | none => rfl
  | some len =>
      dsimp only
      split
      · rfl
      · cases readCommand (ε := ε) (msg ++ zs) (d + (c + (ℓ + 2))) (toSizeT len) with
        | error e => rfl
        | ok command =>
            cases hg : g command <;> simp only [hg]

theorem iteration_header (hc : c < msg.length - d) (hline : lineAt msg d = some ℓ)
    (hnumber : numberAt msg d ℓ = none) :
    iteration (msg ++ zs) g ⟨c, d, msg.length - d, cs⟩ = .error .header := by
  rw [iteration_line hc hline, hnumber]

theorem iteration_break {len : Int} (hc : c < msg.length - d)
    (hline : lineAt msg d = some ℓ) (hnumber : numberAt msg d ℓ = some len)
    (hlen : sub64 (msg.length - d) (c + (ℓ + 2)) < toSizeT len) :
    iteration (msg ++ zs) g ⟨c, d, msg.length - d, cs⟩
      = .ok (.inr ⟨cs, c + (ℓ + 2)⟩) := by
  rw [iteration_line hc hline, hnumber]
  exact if_pos hlen

/-- The bytes of a command that lie in the message are what is read. -/
theorem readCommand_eq {len : Nat} (hlen : len ≤ msg.length - d) (hd : d ≤ msg.length) :
    readCommand (ε := ε) (msg ++ zs) d len = .ok (Bytes.new.append (bodyAt msg d len)) := by
  rw [readCommand, bodyAt]
  split
  · rename_i hzero
    rw [hzero, List.take_zero]
  · rw [Buffer.slice_eq (by rw [List.length_append]; omega),
      List.drop_append_of_le_length hd,
      List.take_append_of_le_length (by rw [List.length_drop]; exact hlen)]

/-- A command in the message goes to `getCommand`, and the loop goes on when
that returns. -/
theorem iteration_command {len : Int} (hc : c < msg.length - d)
    (hline : lineAt msg d = some ℓ) (hnumber : numberAt msg d ℓ = some len)
    (hd : d + (c + (ℓ + 2)) ≤ msg.length)
    (hlen : toSizeT len ≤ msg.length - (d + (c + (ℓ + 2)))) :
    iteration (msg ++ zs) g ⟨c, d, msg.length - d, cs⟩ =
      match g (Bytes.new.append (bodyAt msg (d + (c + (ℓ + 2))) (toSizeT len))) with
      | .error e => .error (.command e)
      | .ok () =>
        .ok (.inl ⟨c + (ℓ + 2) + toSizeT len, d + (c + (ℓ + 2)),
          msg.length - (d + (c + (ℓ + 2))),
          cs ++ [bodyAt msg (d + (c + (ℓ + 2))) (toSizeT len)]⟩) := by
  have hsub : sub64 (msg.length - d) (c + (ℓ + 2)) = msg.length - (d + (c + (ℓ + 2))) := by
    rw [sub64, if_pos (by omega), Nat.sub_sub]
  rw [iteration_line hc hline, hnumber]
  simp only [hsub, if_neg (Nat.not_lt.mpr hlen), readCommand_eq hlen hd]
  rfl

theorem iteration_goOn {len : Int} (hc : c < msg.length - d)
    (hline : lineAt msg d = some ℓ) (hnumber : numberAt msg d ℓ = some len)
    (hd : d + (c + (ℓ + 2)) ≤ msg.length)
    (hlen : toSizeT len ≤ msg.length - (d + (c + (ℓ + 2))))
    (hreturns : Returns g (bodyAt msg (d + (c + (ℓ + 2))) (toSizeT len))) :
    iteration (msg ++ zs) g ⟨c, d, msg.length - d, cs⟩ =
      .ok (.inl ⟨c + (ℓ + 2) + toSizeT len, d + (c + (ℓ + 2)),
        msg.length - (d + (c + (ℓ + 2))),
        cs ++ [bodyAt msg (d + (c + (ℓ + 2))) (toSizeT len)]⟩) := by
  rw [iteration_command hc hline hnumber hd hlen, hreturns]

/-- A header whose command is not longer than `size` does not end the loop. -/
theorem iteration_noBreak {len : Int} (hc : c < msg.length - d) (hline : lineAt msg d = some ℓ)
    (hnumber : numberAt msg d ℓ = some len)
    (hlen : ¬ sub64 (msg.length - d) (c + (ℓ + 2)) < toSizeT len) (a : Analysis) :
    iteration (msg ++ zs) g ⟨c, d, msg.length - d, cs⟩ ≠ .ok (.inr a) := by
  rw [iteration_line hc hline, hnumber]
  simp only [if_neg hlen]
  split
  · nofun
  · split <;> nofun

/-- An iteration behind which the loop goes on has found a header and read a command of the length
it says. -/
theorem iteration_inv {k' : Cursor}
    (h : iteration (msg ++ zs) g ⟨c, d, msg.length - d, cs⟩ = .ok (.inl k')) :
    c < msg.length - d ∧
    ∃ ℓ len command, lineAt msg d = some ℓ ∧ numberAt msg d ℓ = some len ∧
      toSizeT len ≤ sub64 (msg.length - d) (c + (ℓ + 2)) ∧
      readCommand (ε := ε) (msg ++ zs) (d + (c + (ℓ + 2))) (toSizeT len) = .ok command ∧
      k' = ⟨c + (ℓ + 2) + toSizeT len, d + (c + (ℓ + 2)),
        sub64 (msg.length - d) (c + (ℓ + 2)), cs ++ [command.content]⟩ := by
  by_cases hc : c < msg.length - d
  · cases hline : lineAt msg d with
    | none =>
        rw [iteration_noLine hc hline] at h
        cases h
    | some ℓ =>
        rw [iteration_line hc hline] at h
        cases hnumber : numberAt msg d ℓ with
        | none =>
            rw [hnumber] at h
            cases h
        | some len =>
            simp only [hnumber] at h
            split at h
            · cases h
            · rename_i hlen
              split at h
              · cases h
              · rename_i command hread
                split at h
                · cases h
                · cases h
                  exact ⟨hc, ℓ, len, command, rfl, hnumber, Nat.not_lt.mp hlen, hread, rfl⟩
  · rw [iteration_leave hc] at h
    cases h

/-! ## Behind the message -/

theorem cr_notMem_zeros (n : Nat) : (13 : Byte) ∉ List.replicate n 0 := by
  intro hmem
  exact absurd (List.eq_of_mem_replicate hmem) (by decide)

/-- What is read lies in the memory. -/
theorem readCommand_inside {mem : List Byte} {data len : Nat} {command : Bytes}
    (h : readCommand (ε := ε) mem data len = .ok command) :
    len = 0 ∨ data + len ≤ mem.length := by
  rw [readCommand] at h
  split at h
  · exact .inl ‹_›
  · split at h
    · cases h
    · rename_i hslice
      rw [Buffer.slice] at hslice
      split at hslice
      · exact .inr ‹_›
      · cases hslice

/-- Behind the message there is no line to find. -/
theorem iteration_behind {k : Cursor} (hzs : (13 : Byte) ∉ zs) (hdata : msg.length ≤ k.data)
    (hpos : k.currentPos < k.size) (hsize : (msg ++ zs).length < k.size - 1) :
    iteration (msg ++ zs) g k = .error .outside := by
  have hdrop : (msg ++ zs).drop k.data = zs.drop (k.data - msg.length) := by
    rw [List.drop_append, List.drop_eq_nil_of_le hdata, List.nil_append]
  have hoff : scan crlf (zs.drop (k.data - msg.length)) (k.size - 1) = none := by
    refine scan_off (fun hmem => hzs (List.mem_of_mem_drop hmem)) ?_
    rw [List.length_append] at hsize
    rw [List.length_drop]
    omega
  have hline : getLine (ε := ε) (msg ++ zs) k.data k.size = .error .outside := by
    rw [getLine, hdrop, sub64, if_pos (by omega), hoff]
  rw [iteration, if_neg (not_not_intro hpos), hline]
  rfl

/-- A header that makes `size` wrap, and does not stop the loop, leads the
parser off the buffer. -/
theorem run_wrapped {k' : Cursor} (hzs : (13 : Byte) ∉ zs) (hcap : (msg ++ zs).length < 2 ^ 62)
    (hnext : iteration (msg ++ zs) g ⟨c, d, msg.length - d, cs⟩ = .ok (.inl k'))
    (hwrap : msg.length < k'.data) : (analysisLoop (msg ++ zs) g).run k' = .error .outside := by
  obtain ⟨hc, ℓ, len, command, hline, -, -, hread, hk'⟩ := iteration_inv hnext
  have hle := lineAt_le hline
  have hinside := readCommand_inside hread
  have hmsg : msg.length ≤ (msg ++ zs).length := by
    rw [List.length_append]
    omega
  subst hk'
  dsimp only at hwrap
  have hsub : sub64 (msg.length - d) (c + (ℓ + 2)) = msg.length - d + 2 ^ 64 - (c + (ℓ + 2)) :=
    if_neg (by omega)
  rw [hsub]
  apply While.run_fault
  -- the next iteration starts behind the message with a wrapped `size`
  exact iteration_behind hzs (Nat.le_of_lt hwrap) (by dsimp only; omega) (by dsimp only; omega)

end

/-! ## The headers -/

/-- `Head msg returns d c`: the parser comes to look for a header behind the
offset `d` with `currentPos` at `c`. It comes there from an earlier header
whose line ends at least `c` bytes before the end of the message, whose number
of bytes is there, and whose command lets `getCommand` return. -/
inductive Head (msg : List Byte) (returns : List Byte → Prop) : Nat → Nat → Prop
  | first : Head msg returns 0 0
  | next {d c ℓ : Nat} {len : Int} : Head msg returns d c → c < msg.length - d →
      lineAt msg d = some ℓ → numberAt msg d ℓ = some len →
      d + (c + (ℓ + 2)) ≤ msg.length → toSizeT len ≤ msg.length - (d + (c + (ℓ + 2))) →
      returns (bodyAt msg (d + (c + (ℓ + 2))) (toSizeT len)) →
      Head msg returns (d + (c + (ℓ + 2))) (c + (ℓ + 2) + toSizeT len)

/-- The cursor is at a head, and `size` is what is left behind it. -/
def AtHead {ε : Type} (msg : List Byte) (g : Bytes → Except ε Unit) (k : Cursor) : Prop :=
  Head msg (Returns g) k.data k.currentPos ∧ k.size = msg.length - k.data

section

variable {ε : Type} {msg : List Byte} {g : Bytes → Except ε Unit} {c d : Nat}

theorem Head.bounds {returns : List Byte → Prop} (h : Head msg returns d c) :
    d ≤ msg.length ∧ c ≤ msg.length := by
  cases h with
  | first => exact ⟨Nat.zero_le _, Nat.zero_le _⟩
  | next _ _ _ _ hd hlen _ => exact ⟨hd, by omega⟩

/-- The loop visits every head. -/
theorem Head.visits (h : Head msg (Returns g) d c) (zs : List Byte) :
    ∃ cs, (analysisLoop (msg ++ zs) g).Visits (.start msg.length)
      ⟨c, d, msg.length - d, cs⟩ := by
  induction h with
  | first => exact ⟨[], .start⟩
  | next _ hc hline hnumber hd hlen hreturns ih =>
      obtain ⟨cs, hvisits⟩ := ih
      exact ⟨_, hvisits.next (iteration_goOn hc hline hnumber hd hlen hreturns)⟩

end

end LearnSpace.KvStore
