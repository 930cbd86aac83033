import LearnSpace.KvStore.ProtocolCursor

/-!
# When the parser returns

Of all the commands the protocol names, `getCommand` handles none: behind the
name it either reads a line that need not be there, or runs off its own end.
It returns for the bodies without a first line and those whose first line is
no command (`getCommand_returns_iff`), unless `split` reads past the buffer.
`analysis_returns_iff` carries this to the whole message.
-/

namespace LearnSpace.KvStore

open Keel

/-! ## Pieces -/

namespace Bytes

variable {B : Bytes} {pos : Nat}

/-- The buffer from a position of the content on. -/
theorem memory_drop (hpos : pos ≤ B.size) :
    B.memory.drop pos = B.content.drop pos ++ List.replicate (B.capacity - B.size) 0 :=
  List.drop_append_of_le_length hpos

/-- `split` does not read past the buffer: a byte of the tail, or a last byte
other than `'\r'`, ends the last comparison. -/
def SplitFits (B : Bytes) : Prop :=
  B.size < B.capacity ∨ B.content.getLast? ≠ some 13

theorem find_crlf (hfits : B.SplitFits) (hpos : pos ≤ B.size) :
    B.find crlfArray pos = .ok ((firstOcc crlf (B.content.drop pos)).map (pos + ·)) := by
  have hscan : scan crlf (B.memory.drop pos) (B.size - pos)
      = some (firstOcc crlf (B.content.drop pos)) := by
    have hlen : B.size - pos = (B.content.drop pos).length := (List.length_drop ..).symm
    rw [memory_drop hpos, hlen]
    refine scan_whole (fun hlast => ?_)
    rcases hfits with hroom | hne
    · obtain ⟨k, hk⟩ := Nat.exists_eq_succ_of_ne_zero (Nat.sub_ne_zero_of_lt hroom)
      exact ⟨0, by rw [hk]; rfl, by decide⟩
    · refine absurd ?_ hne
      rw [List.getLast?_drop] at hlast
      split at hlast
      · cases hlast
      · exact hlast
  have hvalue : crlfArray.content = crlf := rfl
  rw [find, hvalue, hscan]

/-- When the comparison does run past the buffer, `find` never answers that
there is no separator left. -/
theorem find_crlf_overrun (hfull : B.capacity = B.size) (hpos : pos ≤ B.size)
    (hlast : (B.content.drop pos).getLast? = some 13) :
    B.find crlfArray pos ≠ .ok none := by
  intro h
  have hvalue : crlfArray.content = crlf := rfl
  have hlen : B.size - pos = (B.content.drop pos).length := (List.length_drop ..).symm
  rw [find, hvalue, memory_drop hpos, hfull, Nat.sub_self, List.replicate_zero,
    List.append_nil, hlen] at h
  cases hocc : firstOcc crlf (B.content.drop pos) with
  | none =>
      rw [show scan crlf _ _ = none from scan_overrun hlast hocc] at h
      cases h
  | some i =>
      cases hscan : scan crlf (B.content.drop pos) (B.content.drop pos).length with
      | none => rw [hscan] at h; cases h
      | some r =>
          rw [hscan] at h
          cases r with
          | some j => cases h
          | none =>
              have hle := firstOcc_le hocc
              have hge := scan_notFound hscan hocc
              have : crlf.length = 2 := rfl
              omega

/-! ### `split` at `"\r\n"` -/

/-- The loop of `split` has found the first piece, or nothing yet. -/
def FirstPiece (B : Bytes) (s : Nat × List Bytes) : Prop :=
  s.1 ≤ B.size ∧ ((s.1 = 0 ∧ s.2 = []) ∨
    ∃ ℓ, firstOcc crlf B.content = some ℓ ∧ s.2.head? = some (ofPtrLen (B.content.take ℓ)))

theorem firstPiece_next (hfits : B.SplitFits) {s s' : Nat × List Bytes}
    (hs : B.FirstPiece s) (h : B.splitBody crlfArray s = .ok (.inl s')) :
    B.FirstPiece s' := by
  obtain ⟨index, hfind, rfl⟩ := splitBody_next h
  obtain ⟨hpos, hpieces⟩ := hs
  rw [find_crlf hfits hpos] at hfind
  obtain ⟨i, hi, rfl⟩ := Option.map_eq_some_iff.mp (Except.ok.inj hfind)
  have hle := firstOcc_le hi
  rw [List.length_drop] at hle
  refine ⟨?_, .inr ?_⟩
  · show s.1 + i + 2 ≤ B.content.length
    have : crlf.length = 2 := rfl
    omega
  · rcases hpieces with ⟨hzero, hnil⟩ | ⟨ℓ, hℓ, hhead⟩
    · rw [hzero, List.drop_zero] at hi
      refine ⟨i, hi, ?_⟩
      have htake : B.memory.take i = B.content.take i :=
        List.take_append_of_le_length ((Nat.le_add_right _ _).trans (firstOcc_le hi))
      rw [hnil, hzero, List.drop_zero, Nat.zero_add, Nat.sub_zero, htake]
      rfl
    · refine ⟨ℓ, hℓ, ?_⟩
      rw [List.head?_append, hhead]
      rfl

/-- `split` at `"\r\n"` returns no pieces, or pieces that begin with the first
line. -/
theorem split_crlf (hfits : B.SplitFits) :
    ∃ arrays, B.split crlfArray (by decide) = .ok arrays ∧
      ((firstOcc crlf B.content = none ∧ arrays = []) ∨
        ∃ ℓ, firstOcc crlf B.content = some ℓ ∧
          arrays.head? = some (ofPtrLen (B.content.take ℓ))) := by
  have hvisited : ∀ s, (B.splitLoop crlfArray (by decide)).Visits (0, []) s →
      B.FirstPiece s := by
    intro s hs
    exact hs.invariant ⟨Nat.zero_le _, .inl ⟨rfl, rfl⟩⟩
      (fun _ _ ht hbody => firstPiece_next hfits ht hbody)
  cases hrun : B.split crlfArray (by decide) with
  | error e =>
      obtain ⟨s, hvisits, hbody⟩ := While.exists_fault hrun
      have hfind := splitBody_fault hbody
      rw [find_crlf hfits (hvisited s hvisits).1] at hfind
      cases hfind
  | ok arrays =>
      obtain ⟨s, hvisits, hbody⟩ := While.exists_leave hrun
      obtain ⟨hfind, rfl⟩ := splitBody_leave hbody
      obtain ⟨hpos, hpieces⟩ := hvisited s hvisits
      refine ⟨s.2, rfl, ?_⟩
      rcases hpieces with ⟨hzero, hnil⟩ | hpiece
      · rw [find_crlf hfits hpos, hzero, List.drop_zero] at hfind
        exact .inl ⟨Option.map_eq_none_iff.mp (Except.ok.inj hfind), hnil⟩
      · exact .inr hpiece

/-- The last byte stays behind every separator found. -/
theorem getLast_behind {xs : List Byte} {i : Nat} (hocc : firstOcc crlf xs = some i)
    (hlast : xs.getLast? = some 13) : (xs.drop (i + 2)).getLast? = some 13 := by
  have hle : i + 2 ≤ xs.length := firstOcc_le hocc
  rw [List.getLast?_drop]
  split
  · -- the separator would be the end of the list
    obtain ⟨ys, hys⟩ := prefix_of_firstOcc hocc
    have hnil : ys = [] := by
      have hlen := congrArg List.length hys
      rw [List.length_append, List.length_drop] at hlen
      have : crlf.length = 2 := rfl
      exact List.eq_nil_of_length_eq_zero (by omega)
    have hend := List.getLast?_drop (l := xs) (i := i)
    rw [← hys, hnil, if_neg (by omega), hlast] at hend
    cases hend
  · exact hlast

/-- The loop of `split` is at a rest that ends in `'\r'`. -/
def EndsInCR (B : Bytes) (s : Nat × List Bytes) : Prop :=
  s.1 ≤ B.size ∧ (B.content.drop s.1).getLast? = some 13

theorem endsInCR_next (hfull : B.capacity = B.size) {s s' : Nat × List Bytes}
    (hs : B.EndsInCR s) (h : B.splitBody crlfArray s = .ok (.inl s')) : B.EndsInCR s' := by
  obtain ⟨index, hfind, rfl⟩ := splitBody_next h
  obtain ⟨i, rfl, _, hocc⟩ := find_some (by decide) hfind
  have hvalue : crlfArray.content = crlf := rfl
  rw [hvalue, memory_drop hs.1, hfull, Nat.sub_self, List.replicate_zero, List.append_nil]
    at hocc
  have hle : i + 2 ≤ (B.content.drop s.1).length := firstOcc_le hocc
  rw [List.length_drop] at hle
  refine ⟨?_, ?_⟩
  · show s.1 + i + 2 ≤ B.content.length
    omega
  · show (B.content.drop (s.1 + i + 2)).getLast? = some 13
    rw [Nat.add_assoc, ← List.drop_drop]
    exact getLast_behind hocc hs.2

/-- A full buffer that ends in `'\r'` makes `split` read past it. -/
theorem split_crlf_overrun (hfull : B.capacity = B.size) (hlast : B.content.getLast? = some 13)
    (arrays : List Bytes) : B.split crlfArray (by decide) ≠ .ok arrays := by
  intro hrun
  obtain ⟨s, hvisits, hbody⟩ := While.exists_leave hrun
  have hinv : B.EndsInCR s := hvisits.invariant ⟨Nat.zero_le _, hlast⟩
    (fun _ _ ht hnext => endsInCR_next hfull ht hnext)
  exact find_crlf_overrun hfull hinv.1 hinv.2 (splitBody_leave hbody).1

/-! ### Fresh arrays -/

theorem fresh_full {body : List Byte} (h : body.length = defInitCapacity) :
    (new.append body).capacity = (new.append body).size := by
  show grown defInitCapacity 0 body.length = body.length
  rw [grown, h, if_neg (by omega)]

theorem fresh_splitFits_iff {body : List Byte} :
    (new.append body).SplitFits ↔
      ¬ (body.length = defInitCapacity ∧ body.getLast? = some 13) := by
  have hcontent : (new.append body).content = body := rfl
  rw [SplitFits, hcontent]
  by_cases hlen : body.length = defInitCapacity
  · have := fresh_full hlen
    simp only [hlen, this, Nat.lt_irrefl, false_or, true_and, ne_eq]
  · simp [hlen, fresh_room hlen]

/-- The buffer of a piece ends with one zero. -/
theorem memory_ofPtrLen (str : List Byte) : (ofPtrLen str).memory = str ++ [0] := by
  have hcap : (ofPtrLen str).capacity = str.length + 1 := by
    show grown (str.length + 1) 0 str.length = str.length + 1
    rw [grown, if_neg (by omega)]
  have hcontent : (ofPtrLen str).content = str := rfl
  rw [memory, hcap, hcontent, Pool.filled, Nat.add_sub_cancel_left]
  rfl

end Bytes

/-! ## Names -/

/-- The C string at the start of some bytes. -/
def cString (p : List Byte) : List Byte := p.takeWhile (· ≠ 0)

theorem Command.zero_notMem_name (c : Command) : (0 : Byte) ∉ c.name := by
  cases c <;> decide

/-- `strcmp` on a string that has its zero. -/
theorem sameStr_eq {p name : List Byte} (zs : List Byte) (hname : (0 : Byte) ∉ name) :
    sameStr (p ++ 0 :: zs) name = some (decide (cString p = name)) := by
  unfold cString
  induction p generalizing name with
  | nil =>
      cases name with
      | nil => rfl
      | cons c name =>
          have hc : (0 : Byte) ≠ c := fun he => hname (he ▸ List.mem_cons_self ..)
          simp [sameStr, hc]
  | cons b p ih =>
      cases name with
      | nil =>
          by_cases hb : b = 0 <;> simp [sameStr, hb]
      | cons c name =>
          have hc : c ≠ 0 := fun he => hname (he ▸ List.mem_cons_self ..)
          have hname' : (0 : Byte) ∉ name := fun hmem => hname (List.mem_cons_of_mem _ hmem)
          by_cases hb : b = c
          · simp [sameStr, hb, hc, ih hname']
          · by_cases hb0 : b = 0
            · simp [sameStr, hb0, hc.symm]
            · simp [sameStr, hb, hb0]

/-- The command whose name a piece is, read as a C string. -/
theorem commandOf_eq (piece : List Byte) (commands : List Command) :
    commandOf (piece ++ [0]) commands
      = .ok (commands.find? (fun c => cString piece = c.name)) := by
  induction commands with
  | nil => rfl
  | cons c commands ih =>
      rw [commandOf, sameStr_eq [] c.zero_notMem_name, List.find?_cons]
      by_cases hc : cString piece = c.name
      · rw [decide_eq_true hc]
      · rw [decide_eq_false hc]
        exact ih

/-! ## One command -/

/-- A body that `getCommand` returns from: its first line, read as a C string,
is no command, and it does not make `split` read past its buffer. -/
def Benign (body : List Byte) : Prop :=
  ¬ (body.length = defInitCapacity ∧ body.getLast? = some 13) ∧
    ∀ ℓ, firstOcc crlf body = some ℓ → ∀ c : Command, cString (body.take ℓ) ≠ c.name

theorem chop_ne_ok (B B' : Bytes) (count : Nat) : B.chop count ≠ .ok B' := by
  rw [Bytes.chop]
  split <;> exact fun h => by cases h

theorem Command.mem_all (c : Command) : c ∈ [Command.Get, .Set, .Del, .Exist] := by
  cases c <;> decide

/-- With pieces, `getCommand` returns when the first is no command. -/
theorem getCommand_piece {commandStr : Bytes} {piece : List Byte} {rest : List Bytes}
    (hsplit : commandStr.split crlfArray (by decide) = .ok (.ofPtrLen piece :: rest)) :
    getCommand commandStr = .ok () ↔ ∀ c : Command, cString piece ≠ c.name := by
  have harray : arraysAt (Bytes.ofPtrLen piece :: rest) 0 = .ok (.ofPtrLen piece) := rfl
  rw [getCommand]
  simp only [hsplit, harray, Bytes.memory_ofPtrLen, commandOf_eq, bind, Except.bind, pure,
    Except.pure, List.isEmpty_cons, if_false, Bool.false_eq_true]
  cases hfind : [Command.Get, .Set, .Del, .Exist].find? (fun c => cString piece = c.name) with
  | none =>
      refine ⟨fun _ c hc => ?_, fun _ => rfl⟩
      exact List.find?_eq_none.mp hfind c c.mem_all (decide_eq_true hc)
  | some c =>
      have hname : cString piece = c.name := by
        simpa using List.find?_some hfind
      refine ⟨fun hok => ?_, fun hne => absurd hname (hne c)⟩
      cases c with
      | Get =>
          cases hat : arraysAt (Bytes.ofPtrLen piece :: rest) 1 with
          | error e => simp [hat] at hok
          | ok array =>
              cases hchop : array.chop 2 with
              | error e => simp [hat, hchop] at hok
              | ok B => exact absurd hchop (chop_ne_ok array B 2)
      | Set => cases hok
      | Del => cases hok
      | Exist => cases hok

theorem getCommand_returns_iff (body : List Byte) :
    Returns getCommand body ↔ Benign body := by
  have hcontent : (Bytes.new.append body).content = body := rfl
  rw [Returns, Benign, ← Bytes.fresh_splitFits_iff]
  by_cases hfits : (Bytes.new.append body).SplitFits
  · obtain ⟨arrays, hsplit, hpieces⟩ := Bytes.split_crlf hfits
    rw [hcontent] at hpieces
    rcases hpieces with ⟨hocc, rfl⟩ | ⟨ℓ, hocc, hhead⟩
    · rw [getCommand]
      simp only [hsplit, bind, Except.bind, pure, Except.pure, List.isEmpty_nil, if_true]
      refine ⟨fun _ => ⟨hfits, fun ℓ hℓ => ?_⟩, fun _ => trivial⟩
      rw [hocc] at hℓ
      cases hℓ
    · obtain ⟨rest, rfl⟩ := List.head?_eq_some_iff.mp hhead
      rw [getCommand_piece hsplit]
      refine ⟨fun h => ⟨hfits, fun ℓ' hℓ' => ?_⟩, fun h => h.2 ℓ hocc⟩
      rw [hocc] at hℓ'
      cases hℓ'
      exact h
  · refine ⟨fun hok => ?_, fun h => absurd h.1 hfits⟩
    rw [Bytes.fresh_splitFits_iff, not_not] at hfits
    have hsplit := Bytes.split_crlf_overrun (Bytes.fresh_full hfits.1) hfits.2
    rw [getCommand] at hok
    cases hs : (Bytes.new.append body).split crlfArray (by decide) with
    | ok arrays => exact absurd hs (hsplit arrays)
    | error e =>
        rw [hs] at hok
        cases hok

end LearnSpace.KvStore
