import LearnSpace.Keel.Reads
import LearnSpace.KvStore.Protocol

/-!
# The line scanner of the parser

`getLine` byte by byte, as a computation that reads memory, with any array to append to. Its loop
is the scan the parser was modelled with (`scanLoop_run`), so for a fresh array it is the lambda of
`analysis` (`getLine_fresh`). On a range of at least one byte it finds exactly the pairs that lie
wholly in the range, and reads nothing behind it (`getLine_scans`).
-/

namespace LearnSpace.KvStore.Line

open Keel

variable {mem : List Byte} {data dataLen i n : Nat} {line : Bytes}

/-! ## The lambda -/

/-- The loop from `i` on, of which `n` iterations are left: the index it is left with. -/
def scanLoop (data : Nat) : Nat → Nat → Reads Byte Nat
  | 0, i => return i
  | n + 1, i => do
      let c ← Reads.get ((data + i : Nat) : Int)
      if c = 13 then do
        -- the second byte is only looked at behind a CR
        let d ← Reads.get ((data + (i + 1) : Nat) : Int)
        if d = 10 then return i else scanLoop data n (i + 1)
      else scanLoop data n (i + 1)

/-- The bytes `append` copies. -/
def readBytes (pos : Nat) : Nat → Reads Byte (List Byte)
  | 0 => return []
  | n + 1 => do
      let b ← Reads.get (pos : Int)
      let bytes ← readBytes (pos + 1) n
      return b :: bytes

/-- The lambda `getLine`: what it returns, and the array `line` behind the call. -/
def getLine (data dataLen : Nat) (line : Bytes) : Reads Byte (Bool × Bytes) := do
  let i ← scanLoop data (sub64 dataLen 1) 0
  if i = sub64 dataLen 1 then
    return (false, line)
  else do
    let bytes ← readBytes data i
    return (true, line.append bytes)

/-! ## The loop -/

theorem cell_nat (mem : List Byte) (pos : Nat) : cell mem ((pos : Nat) : Int) = mem[pos]? := by
  have h : cell mem ((0 : Nat) + (pos : Int)) = (mem.drop 0)[pos]? := Reads.cell_drop 0 pos
  rwa [List.drop_zero, Int.natCast_zero, Int.zero_add] at h

/-- A position without the separator is passed over. -/
theorem scan_skip {c : Byte} {sec : List Byte} (h : isSame (c :: sec) crlf = some false) :
    scan crlf (c :: sec) (n + 1) = (scan crlf sec n).map (Option.map (· + 1)) := by
  rw [scan, h]
  cases scan crlf sec n <;> rfl

/-- The loop is the scan for the separator, on any memory. -/
theorem scanLoop_run (mem : List Byte) (data n i : Nat) :
    (scanLoop data n i).run mem =
      (scan crlf (mem.drop (data + i)) n).map fun found => found.elim (i + n) (i + ·) := by
  induction n generalizing i with
  | zero => simp [scanLoop, scan]
  | succ n ih =>
      rw [scanLoop, Reads.run_bind, Reads.run_get, cell_nat, ← List.head?_drop]
      cases hsec : mem.drop (data + i) with
      | nil => rfl
      | cons c sec =>
          have hrest : mem.drop (data + (i + 1)) = sec := by
            rw [← Nat.add_assoc, ← List.drop_drop, hsec]
            rfl
          have hnext : isSame (c :: sec) crlf = some false →
              (scanLoop data n (i + 1)).run mem = (scan crlf (c :: sec) (n + 1)).map
                fun found => found.elim (i + (n + 1)) (i + ·) := by
            intro hsame
            rw [ih, hrest, scan_skip hsame, Option.map_map]
            congr 1
            funext found
            cases found <;> simp <;> omega
          rw [List.head?_cons, Option.bind_some]
          by_cases hc : c = 13
          · rw [if_pos hc, Reads.run_bind, Reads.run_get, cell_nat, ← List.head?_drop, hrest]
            cases sec with
            | nil => simp [scan, crlf, isSame, hc]
            | cons d sec =>
                rw [List.head?_cons, Option.bind_some]
                by_cases hd : d = 10
                · simp [scan, crlf, isSame, hc, hd]
                · rw [if_neg hd]
                  exact hnext (by simp [crlf, isSame, hc, hd])
          · rw [if_neg hc]
            exact hnext (by simp [crlf, isSame, hc])

/-- The bytes of a range of the memory. -/
theorem readBytes_run {pos : Nat} (h : pos + n ≤ mem.length) :
    (readBytes pos n).run mem = some ((mem.drop pos).take n) := by
  induction n generalizing pos with
  | zero => simp [readBytes]
  | succ n ih =>
      have hpos : pos < mem.length := by omega
      rw [readBytes, Reads.run_bind, Reads.run_get, cell_nat, List.getElem?_eq_getElem hpos,
        Option.bind_some, Reads.run_bind, ih (by omega), Option.bind_some,
        List.drop_eq_getElem_cons hpos, List.take_succ_cons]
      rfl

/-! ## The result -/

/-- A CR at `i` of the range, and an LF behind it. -/
def PairAt (mem : List Byte) (data i : Nat) : Prop :=
  mem[data + i]? = some 13 ∧ mem[data + i + 1]? = some 10

/-- What `getLine` is for: it finds the first pair that lies in the range, and appends the bytes
in front of it. -/
structure Scanned (mem : List Byte) (data dataLen : Nat) (line : Bytes) (r : Bool × Bytes) :
    Prop where
  found : r.1 = true ↔ ∃ i, i + 1 < dataLen ∧ PairAt mem data i
  appended : r.1 = true → ∃ i, i + 1 < dataLen ∧ PairAt mem data i ∧
    (∀ j, j < i → ¬ PairAt mem data j) ∧ r.2 = line.append ((mem.drop data).take i)
  unchanged : r.1 = false → r.2 = line

/-- The separator stands in the range where a pair of its positions does. -/
theorem crlf_prefix_iff (mem : List Byte) (data dataLen i : Nat) :
    crlf <+: ((mem.drop data).take dataLen).drop i ↔ i + 1 < dataLen ∧ PairAt mem data i := by
  have hpair : ∀ xs : List Byte, crlf <+: xs ↔ xs[0]? = some 13 ∧ xs[1]? = some 10 := by
    intro xs
    match xs with
    | [] => simp [crlf]
    | [c] => simp [crlf]
    | c :: d :: xs => simp [crlf, List.cons_prefix_cons, eq_comm]
  rw [hpair, List.getElem?_drop, List.getElem?_drop, Nat.add_zero, PairAt]
  by_cases hi : i + 1 < dataLen
  · rw [List.getElem?_take_of_lt (Nat.lt_of_succ_lt hi), List.getElem?_take_of_lt hi,
      List.getElem?_drop, List.getElem?_drop, ← Nat.add_assoc]
    simp [hi]
  · have hout : ((mem.drop data).take dataLen)[i + 1]? = none := by
      rw [List.getElem?_take, if_neg hi]
    rw [hout]
    simp [hi]

/-- Up to one byte less than a range has, the scan looks at exactly the range. -/
theorem scan_range (hpos : 1 ≤ dataLen) (hfit : data + dataLen ≤ mem.length) :
    scan crlf (mem.drop data) (sub64 dataLen 1) =
      some (firstOcc crlf ((mem.drop data).take dataLen)) := by
  have hsub : sub64 dataLen 1 = dataLen - 1 := if_pos hpos
  have hlen : dataLen - 1 + crlf.length = ((mem.drop data).take dataLen).length + 1 := by
    rw [List.length_take, List.length_drop]
    show dataLen - 1 + 2 = _
    omega
  have hscan : scan crlf ((mem.drop data).take dataLen ++ (mem.drop data).drop dataLen)
      (dataLen - 1) = some (firstOcc crlf ((mem.drop data).take dataLen)) :=
    scan_eq (by decide) hlen
  rwa [List.take_append_drop, ← hsub] at hscan

/-- The loop on such a range stops at the first separator in it. -/
theorem scanLoop_range (hpos : 1 ≤ dataLen) (hfit : data + dataLen ≤ mem.length) :
    (scanLoop data (sub64 dataLen 1) 0).run mem =
      some ((firstOcc crlf ((mem.drop data).take dataLen)).getD (dataLen - 1)) := by
  have hsub : sub64 dataLen 1 = dataLen - 1 := if_pos hpos
  rw [scanLoop_run, Nat.add_zero, scan_range hpos hfit, hsub, Option.map_some]
  cases firstOcc crlf ((mem.drop data).take dataLen) <;> simp

/-- `getLine` on such a range. -/
theorem getLine_run (hpos : 1 ≤ dataLen) (hfit : data + dataLen ≤ mem.length) (line : Bytes) :
    (getLine data dataLen line).run mem =
      some ((firstOcc crlf ((mem.drop data).take dataLen)).elim (false, line) fun i =>
        (true, line.append ((mem.drop data).take i))) := by
  have hsub : sub64 dataLen 1 = dataLen - 1 := if_pos hpos
  rw [getLine, Reads.run_bind, scanLoop_range hpos hfit, Option.bind_some, hsub]
  cases hocc : firstOcc crlf ((mem.drop data).take dataLen) with
  | none =>
      rw [Option.getD_none, if_pos rfl]
      rfl
  | some i =>
      have hin : i + 2 ≤ ((mem.drop data).take dataLen).length := firstOcc_le hocc
      rw [List.length_take, List.length_drop] at hin
      rw [Option.getD_some, if_neg (by omega), Reads.run_bind, readBytes_run (by omega)]
      rfl

/-- For a fresh array it is the lambda of `analysis`. -/
theorem getLine_fresh {ε : Type} (hpos : 1 ≤ dataLen) (hfit : data + dataLen ≤ mem.length)
    {r : Bool × Bytes} (h : (getLine data dataLen Bytes.new).run mem = some r) :
    KvStore.getLine (ε := ε) mem data dataLen = .ok (if r.1 then some r.2 else none) := by
  rw [getLine_run hpos hfit] at h
  cases h
  rw [KvStore.getLine, scan_range hpos hfit]
  cases firstOcc crlf ((mem.drop data).take dataLen) <;> rfl

/-- **The line scanner.** On a range of at least one byte that is there, `getLine` finds the
first CR LF that lies wholly in the range, appends exactly what stands before it, and otherwise
leaves the array alone; it reads nothing behind the range. -/
theorem getLine_scans (mem : List Byte) (data dataLen : Nat) (line : Bytes) (hpos : 1 ≤ dataLen)
    (hfit : data + dataLen ≤ mem.length) :
    ∃ r, (getLine data dataLen line).run mem = some r ∧ Scanned mem data dataLen line r ∧
      ∀ pos ∈ (getLine data dataLen line).positions mem, pos < data + dataLen := by
  refine ⟨_, getLine_run hpos hfit line, ?_, ?_⟩
  · cases hocc : firstOcc crlf ((mem.drop data).take dataLen) with
    | none =>
        have hnone : ∀ i, ¬ (i + 1 < dataLen ∧ PairAt mem data i) := by
          intro i
          rw [← crlf_prefix_iff]
          exact firstOcc_eq_none_iff.mp hocc i
        exact {
          found := iff_of_false Bool.false_ne_true (not_exists.mpr hnone)
          appended := fun h => absurd h Bool.false_ne_true
          unchanged := fun _ => rfl }
    | some i =>
        obtain ⟨hat, hbefore⟩ := firstOcc_eq_some_iff.mp hocc
        obtain ⟨hin, hpair⟩ := (crlf_prefix_iff mem data dataLen i).mp hat
        have hfirst : ∀ j, j < i → ¬ PairAt mem data j := by
          intro j hj hp
          exact hbefore j hj ((crlf_prefix_iff mem data dataLen j).mpr ⟨by omega, hp⟩)
        exact {
          found := iff_of_true rfl ⟨i, hin, hpair⟩
          appended := fun _ => ⟨i, hin, hpair, hfirst, rfl⟩
          unchanged := fun h => absurd h.symm Bool.false_ne_true }
  · -- the call succeeds on the memory up to the end of the range, so it stays there
    have hfront : (mem.take (data + dataLen)).length = data + dataLen :=
      List.length_take_of_le hfit
    have hrun := getLine_run hpos (Nat.le_of_eq hfront.symm) line
    have hinside : ∀ pos ∈ (getLine data dataLen line).positions
        (mem.take (data + dataLen) ++ mem.drop (data + dataLen)),
          pos < (mem.take (data + dataLen)).length := ((Reads.run_front_iff _ _).mp hrun).2
    rw [List.take_append_drop, hfront] at hinside
    exact_mod_cast hinside

/-- A lone CR is part of the line. -/
theorem getLine_scans_lone :
    ∃ r, (getLine 1 5 Bytes.new).run [0, 65, 13, 13, 10, 66, 13, 10] = some r ∧
      Scanned [0, 65, 13, 13, 10, 66, 13, 10] 1 5 Bytes.new r ∧
        ∀ pos ∈ (getLine 1 5 Bytes.new).positions [0, 65, 13, 13, 10, 66, 13, 10], pos < 1 + 5 :=
  getLine_scans [0, 65, 13, 13, 10, 66, 13, 10] 1 5 Bytes.new (by decide) (by decide)

end LearnSpace.KvStore.Line
