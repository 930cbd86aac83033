import LearnSpace.Dns.Encoding
import LearnSpace.Dns.Records
import LearnSpace.KvStore.ByteArrayFind

/-!
# The question as labels

`getQuestionStr` cuts the name at its dots and writes a length byte in front of each part. A name
that ends in a dot has an empty last part, whose length byte is the zero that ends the labels, and
another one follows; an empty part further in front ends them early, and a part of more than 63
bytes is written all the same. So the question is read as it was meant exactly when every part of
its name has from 1 to 63 bytes (`question_iff`).

The position behind a dot is kept in an `int`, so from 2^31 bytes on it can be negative, and then
`substr` throws. That is the only way in which the encoder refuses a name.
-/

namespace LearnSpace.Dns.Question

open Keel KvStore

/-! ## The encoder with its `int` -/

/-- `qname.substr(pos, end - pos)` for an `int` `pos`; `none` where it throws. A negative position
is larger than any string as a `size_t`. -/
def substrInt (qname : List Byte) (pos : Int) (stop : Nat) : Option (List Byte) :=
  if 0 ≤ pos ∧ pos ≤ qname.length then some (substr qname pos.toNat (stop - pos.toNat)) else none

/-- The variables of the first loop. -/
structure IntSplit where
  pos : Int := 0
  nameVec : List (List Byte) := []

/-- One iteration of the first loop. -/
def splitAtInt (qname : List Byte) (s : IntSplit) (i : Nat) : Option IntSplit :=
  if qname[i]? = some 46 then do
    let part ← substrInt qname s.pos i
    return { pos := toInt (i + 1), nameVec := s.nameVec ++ [part] }
  else some s

/-- The parts of the name. -/
def nameVecInt (qname : List Byte) : Option (List (List Byte)) := do
  let s ← (List.range qname.length).foldlM (splitAtInt qname) {}
  let part ← substrInt qname s.pos qname.length
  return s.nameVec ++ [part]

/-- What `getQuestionStr` writes, when it does not throw. -/
def getQuestionStrInt (question : Question) : Option (List Byte) := do
  let nameVec ← nameVecInt question.qname
  return nameVec.flatMap label ++ [0] ++ shortBytes (htons question.qtype) ++
    shortBytes (htons question.qclass)

/-- A dot of the name at which the position becomes negative. -/
def Wraps (qname : List Byte) : Prop :=
  ∃ i : Nat, qname[i]? = some 46 ∧ 2 ^ 31 ≤ (i + 1) % 2 ^ 32

/-! ## The parts of a name -/

variable {qname : List Byte} {k i : Nat}

/-- In front of iteration `k`: what is cut off, and the part the loop is in. -/
structure Cut (qname : List Byte) (k : Nat) (s : Split) (front current : List Byte) : Prop where
  split : qname.take k = front ++ current
  current : 46 ∉ current
  pos : s.pos = front.length
  parts : ∀ zs, (front ++ zs).splitOn 46 = s.nameVec ++ zs.splitOn 46
  dot : front = [] ∨ ∃ f, front = f ++ [46]

/-- An iteration goes on with the part or cuts it off. -/
theorem Cut.step {s : Split} {front current : List Byte} (c : Cut qname k s front current)
    (hk : k < qname.length) :
    ∃ front' current', Cut qname (k + 1) (splitAt qname s k) front' current' := by
  have hlen := congrArg List.length c.split
  rw [List.length_take_of_le (Nat.le_of_lt hk), List.length_append] at hlen
  have hnext : qname.take (k + 1) = front ++ (current ++ [qname[k]]) := by
    rw [List.take_succ_eq_append_getElem hk, c.split, List.append_assoc]
  unfold splitAt
  by_cases hdot : qname[k]? = some 46
  · rw [if_pos hdot]
    have hbyte : qname[k] = 46 := by
      rw [List.getElem?_eq_getElem hk] at hdot
      exact Option.some.inj hdot
    rw [hbyte] at hnext
    have hpart : substr qname s.pos (k - s.pos) = current := by
      unfold substr
      rw [← List.drop_take, c.split, c.pos, List.drop_left]
    refine ⟨front ++ current ++ [46], [], ?_, List.not_mem_nil, ?_, ?_, .inr ⟨_, rfl⟩⟩
    · rw [hnext, List.append_nil, List.append_assoc]
    · simp [hlen, Nat.add_assoc]
    · intro zs
      have hzs : front ++ current ++ [46] ++ zs = front ++ (current ++ 46 :: zs) := by simp
      rw [hzs, c.parts, List.splitOn_append_cons_self_of_not_mem c.current, hpart]
      simp
  · rw [if_neg hdot]
    refine ⟨front, current ++ [qname[k]], hnext, ?_, c.pos, c.parts, c.dot⟩
    intro hmem
    cases List.mem_append.mp hmem with
    | inl hold => exact c.current hold
    | inr hnew =>
        apply hdot
        rw [List.getElem?_eq_getElem hk, ← List.mem_singleton.mp hnew]

/-- The first loop up to an index. -/
theorem cut_run (qname : List Byte) (k : Nat) (hk : k ≤ qname.length) :
    ∃ front current,
      Cut qname k ((List.range k).foldl (splitAt qname) {}) front current := by
  induction k with
  | zero =>
      exact ⟨[], [], rfl, List.not_mem_nil, rfl, fun zs => rfl, .inl rfl⟩
  | succ k ih =>
      obtain ⟨front, current, c⟩ := ih (Nat.le_of_succ_le hk)
      rw [List.range_succ, List.foldl_append]
      exact c.step hk

/-- **The loops make the parts between the dots.** -/
theorem nameVec_eq (qname : List Byte) : nameVec qname = qname.splitOn 46 := by
  obtain ⟨front, current, c⟩ := cut_run qname qname.length (Nat.le_refl _)
  have hsplit := c.split
  rw [List.take_length] at hsplit
  have hparts := c.parts current
  rw [← hsplit, List.splitOn_eq_singleton c.current] at hparts
  unfold nameVec substr
  dsimp only
  rw [hparts, c.pos, hsplit, List.drop_left, List.take_of_length_le (by simp)]

/-! ## The position as an `int` -/

/-- An `int` is what is left modulo 2^32, or negative. -/
theorem toInt_cases (n : Nat) :
    (n % 2 ^ 32 < 2 ^ 31 ∧ toInt n = (n % 2 ^ 32 : Nat)) ∨
      (2 ^ 31 ≤ n % 2 ^ 32 ∧ toInt n < 0) := by
  have hmod : (n : Int) % ((2 ^ 32 : Nat) : Int) = ((n % 2 ^ 32 : Nat) : Int) :=
    (Int.natCast_emod n _).symm
  have hlt : n % 2 ^ 32 < 2 ^ 32 := Nat.mod_lt n (by decide)
  have hhalf : 2 ^ 32 = 2 * 2 ^ 31 := by decide
  unfold toInt
  rw [Int.bmod_def, hmod]
  generalize n % 2 ^ 32 = r at hlt
  split
  · exact .inl ⟨by omega, rfl⟩
  · exact .inr ⟨by omega, by omega⟩

theorem toInt_nonneg_iff (n : Nat) : 0 ≤ toInt n ↔ n % 2 ^ 32 < 2 ^ 31 := by
  rcases toInt_cases n with ⟨hsmall, heq⟩ | ⟨hbig, hneg⟩
  · rw [heq]
    exact iff_of_true (Int.natCast_nonneg _) hsmall
  · exact iff_of_false (Int.not_le.mpr hneg) (Nat.not_lt.mpr hbig)

theorem toInt_le (n : Nat) : toInt n ≤ n := by
  rcases toInt_cases n with ⟨-, heq⟩ | ⟨-, hneg⟩
  · rw [heq]
    exact Int.ofNat_le.mpr (Nat.mod_le n _)
  · exact Int.le_trans (Int.le_of_lt hneg) (Int.natCast_nonneg n)

/-- The first loop up to an index. -/
def splitsInt (qname : List Byte) (k : Nat) : Option IntSplit :=
  (List.range k).foldlM (splitAtInt qname) {}

theorem splitsInt_succ (qname : List Byte) (k : Nat) :
    splitsInt qname (k + 1) = (splitsInt qname k).bind fun s => splitAtInt qname s k := by
  rw [splitsInt, splitsInt, List.range_succ, List.foldlM_append]
  simp

/-- As long as no position becomes negative the loop goes on, with one inside the name. -/
theorem splitsInt_some (hq : ¬ Wraps qname) (hk : k ≤ qname.length) :
    ∃ s, splitsInt qname k = some s ∧ 0 ≤ s.pos ∧ s.pos ≤ k := by
  induction k with
  | zero => exact ⟨{}, rfl, Int.le_refl 0, Int.le_refl 0⟩
  | succ k ih =>
      obtain ⟨s, hs, hpos, hle⟩ := ih (Nat.le_of_succ_le hk)
      rw [splitsInt_succ, hs, Option.bind_some, splitAtInt]
      split
      · rename_i hdot
        have hin : 0 ≤ s.pos ∧ s.pos ≤ qname.length := by omega
        have hsmall : (k + 1) % 2 ^ 32 < 2 ^ 31 := by
          by_contra hbig
          exact hq ⟨k, hdot, Nat.not_lt.mp hbig⟩
        have hnext : 0 ≤ toInt (k + 1) := (toInt_nonneg_iff (k + 1)).mpr hsmall
        rw [substrInt, if_pos hin]
        refine ⟨_, rfl, ?_⟩
        dsimp only
        exact ⟨hnext, toInt_le (k + 1)⟩
      · refine ⟨s, rfl, hpos, ?_⟩
        omega

/-- Behind a dot that makes the position negative it stays so, until `substr` throws. -/
theorem splitsInt_negative {s : IntSplit} (hdot : qname[i]? = some 46)
    (hwrap : 2 ^ 31 ≤ (i + 1) % 2 ^ 32) (hk : i + 1 ≤ k) (hs : splitsInt qname k = some s) :
    s.pos < 0 := by
  induction k, hk using Nat.le_induction generalizing s with
  | base =>
      rw [splitsInt_succ] at hs
      obtain ⟨t, -, hstep⟩ := Option.bind_eq_some_iff.mp hs
      rw [splitAtInt, if_pos hdot] at hstep
      obtain ⟨part, -, hdone⟩ := Option.bind_eq_some_iff.mp hstep
      have hneg : ¬ 0 ≤ toInt (i + 1) :=
        mt (toInt_nonneg_iff (i + 1)).mp (Nat.not_lt.mpr hwrap)
      rw [← Option.some.inj hdone]
      dsimp only
      exact Int.not_le.mp hneg
  | succ k hk ih =>
      rw [splitsInt_succ] at hs
      obtain ⟨t, ht, hstep⟩ := Option.bind_eq_some_iff.mp hs
      have hneg := ih ht
      rw [splitAtInt] at hstep
      split at hstep
      · have hout : ¬ (0 ≤ t.pos ∧ t.pos ≤ qname.length) := by omega
        rw [substrInt, if_neg hout] at hstep
        cases hstep
      · cases hstep
        exact hneg

/-- **The encoder throws exactly at such a dot.** -/
theorem nameVecInt_isSome_iff (qname : List Byte) : (nameVecInt qname).isSome ↔ ¬ Wraps qname := by
  have hrun : (List.range qname.length).foldlM (splitAtInt qname) {} =
      splitsInt qname qname.length := rfl
  rw [nameVecInt, hrun]
  constructor
  · rintro hsome ⟨i, hdot, hwrap⟩
    obtain ⟨hi, -⟩ := List.getElem?_eq_some_iff.mp hdot
    cases hs : splitsInt qname qname.length with
    | none =>
        rw [hs] at hsome
        cases hsome
    | some s =>
        have hneg := splitsInt_negative hdot hwrap hi hs
        have hout : ¬ (0 ≤ s.pos ∧ s.pos ≤ qname.length) := by omega
        rw [hs, Option.bind_eq_bind, Option.bind_some, substrInt, if_neg hout] at hsome
        cases hsome
  · intro hq
    obtain ⟨s, hs, hpos, hle⟩ := splitsInt_some hq (Nat.le_refl _)
    rw [hs, Option.bind_eq_bind, Option.bind_some, substrInt, if_pos ⟨hpos, hle⟩]
    rfl

/-- Where the positions fit, the `int` is the position. -/
theorem splitsInt_eq (hq : ∀ i : Nat, qname[i]? = some 46 → i + 1 < 2 ^ 31)
    (hk : k ≤ qname.length) :
    splitsInt qname k = some
      { pos := ((List.range k).foldl (splitAt qname) {}).pos
        nameVec := ((List.range k).foldl (splitAt qname) {}).nameVec } := by
  induction k with
  | zero => rfl
  | succ k ih =>
      obtain ⟨front, current, c⟩ := cut_run qname k (Nat.le_of_succ_le hk)
      have hlen := congrArg List.length c.split
      rw [List.length_take_of_le (Nat.le_of_succ_le hk), List.length_append, ← c.pos] at hlen
      rw [splitsInt_succ, ih (Nat.le_of_succ_le hk), Option.bind_some, List.range_succ,
        List.foldl_append, List.foldl_cons, List.foldl_nil]
      generalize (List.range k).foldl (splitAt qname) {} = s at hlen
      rw [splitAtInt, splitAt]
      by_cases hdot : qname[k]? = some 46
      · have hin : 0 ≤ (s.pos : Int) ∧ (s.pos : Int) ≤ qname.length := by omega
        rw [if_pos hdot, if_pos hdot, substrInt, if_pos hin, KvStore.toInt_eq (hq k hdot)]
        rfl
      · rw [if_neg hdot, if_neg hdot]

theorem nameVecInt_eq (hq : ∀ i : Nat, qname[i]? = some 46 → i + 1 < 2 ^ 31) :
    nameVecInt qname = some (nameVec qname) := by
  obtain ⟨front, current, c⟩ := cut_run qname qname.length (Nat.le_refl _)
  have hlen := congrArg List.length c.split
  rw [List.take_length, List.length_append, ← c.pos] at hlen
  have hrun : (List.range qname.length).foldlM (splitAtInt qname) {} =
      splitsInt qname qname.length := rfl
  rw [nameVecInt, hrun, splitsInt_eq hq (Nat.le_refl _), nameVec]
  generalize (List.range qname.length).foldl (splitAt qname) {} = s at hlen
  have hin : 0 ≤ (s.pos : Int) ∧ (s.pos : Int) ≤ qname.length := by omega
  rw [Option.bind_eq_bind, Option.bind_some, substrInt, if_pos hin]
  rfl

/-! ## Reading labels -/

/-- The labels at the start of some bytes, up to their zero byte, and what is behind it. -/
def readLabels : List Byte → Option (List (List Byte) × List Byte)
  | [] => none
  | b :: rest =>
      if b = 0 then some ([], rest)
      else if b.toNat ≤ 63 ∧ b.toNat ≤ rest.length then
        (readLabels (rest.drop b.toNat)).map fun r => (rest.take b.toNat :: r.1, r.2)
      else none
termination_by bytes => bytes.length
decreasing_by
  rw [List.length_drop, List.length_cons]
  omega

/-- A part that can be written as a label. -/
def Fine (part : List Byte) : Prop := 0 < part.length ∧ part.length ≤ 63

instance (part : List Byte) : Decidable (Fine part) := inferInstanceAs (Decidable (_ ∧ _))

theorem readLabels_zero (rest : List Byte) : readLabels (0 :: rest) = some ([], rest) := by
  rw [readLabels, if_pos rfl]

theorem readLabels_label {part : List Byte} (h : Fine part) (rest : List Byte) :
    readLabels (label part ++ rest) = (readLabels rest).map fun r => (part :: r.1, r.2) := by
  obtain ⟨hpos, hshort⟩ := h
  have hbyte : (UInt8.ofNat part.length).toNat = part.length := by
    rw [UInt8.toNat_ofNat']
    omega
  have hzero : UInt8.ofNat part.length ≠ 0 := by
    intro heq
    rw [heq] at hbyte
    exact Nat.ne_of_lt hpos hbyte
  have hin : part.length ≤ 63 ∧ part.length ≤ (part ++ rest).length := by
    rw [List.length_append]
    omega
  rw [label, List.cons_append, readLabels, if_neg hzero, hbyte, if_pos hin, List.drop_left,
    List.take_left]

/-- **Labels that can be written are read as they were.** -/
theorem readLabels_written {parts : List (List Byte)} (h : ∀ part ∈ parts, Fine part)
    (rest : List Byte) : readLabels (parts.flatMap label ++ 0 :: rest) = some (parts, rest) := by
  induction parts with
  | nil => exact readLabels_zero rest
  | cons part parts ih =>
      have htail := ih fun p hp => h p (List.mem_cons_of_mem part hp)
      rw [List.flatMap_cons, List.append_assoc, readLabels_label (h part List.mem_cons_self), htail]
      rfl

/-! ## Names -/

/-- The parts of a name, but for the empty one behind a dot at its end. -/
def wanted (qname : List Byte) : List (List Byte) :=
  if (qname.splitOn 46).getLast? = some [] then (qname.splitOn 46).dropLast else qname.splitOn 46

/-- A name that labels can be written for. -/
def Encodable (qname : List Byte) : Prop := ∀ part ∈ wanted qname, Fine part

/-- All parts of the name can be written, also the last one. -/
def AllFine (qname : List Byte) : Prop := ∀ part ∈ qname.splitOn 46, Fine part

theorem mem_wanted {xs ys : List (List Byte)} {part : List Byte}
    (h : qname.splitOn 46 = xs ++ part :: ys) (hys : ys ≠ []) : part ∈ wanted qname := by
  unfold wanted
  split
  · rw [h, List.dropLast_append_of_ne_nil (List.cons_ne_nil part ys),
      List.dropLast_cons_of_ne_nil hys]
    simp
  · rw [h]
    simp

theorem allFine_encodable (h : AllFine qname) : Encodable qname := by
  intro part hmem
  unfold wanted at hmem
  split at hmem
  · exact h part (List.dropLast_subset _ hmem)
  · exact h part hmem

/-- A name for which labels can be written, but not all parts are fine, ends in a dot. -/
theorem trailing_of_encodable (h : Encodable qname) (hq : ¬ AllFine qname) :
    ∃ parts, qname.splitOn 46 = parts ++ [[]] ∧ ∀ part ∈ parts, Fine part := by
  unfold Encodable wanted at h
  split at h
  · rename_i hlast
    refine ⟨(qname.splitOn 46).dropLast, ?_, h⟩
    exact (List.dropLast_append_getLast? [] hlast).symm
  · exact absurd h hq

/-- In a name that labels can be written for, a first position that does not fit would follow
another one by at most 64 bytes, and so be negative. -/
theorem dots_fit (h : Encodable qname) (hq : ¬ Wraps qname) :
    ∀ i : Nat, qname[i]? = some 46 → i + 1 < 2 ^ 31 := by
  intro i
  induction i using Nat.strongRecOn with
  | ind i ih =>
      intro hdot
      obtain ⟨hi, hbyte⟩ := List.getElem?_eq_some_iff.mp hdot
      obtain ⟨front, current, c⟩ := cut_run qname i (Nat.le_of_lt hi)
      have hwhole : qname = front ++ (current ++ 46 :: qname.drop (i + 1)) := by
        rw [← List.append_assoc, ← c.split, ← hbyte, List.cons_getElem_drop_succ,
          List.take_append_drop]
      have hlen := congrArg List.length c.split
      rw [List.length_take_of_le (Nat.le_of_lt hi), List.length_append] at hlen
      have hparts := c.parts (current ++ 46 :: qname.drop (i + 1))
      rw [← hwhole, List.splitOn_append_cons_self_of_not_mem c.current] at hparts
      have hcurrent := h current (mem_wanted hparts (List.splitOn_ne_nil _ _))
      have hfront : front.length < 2 ^ 31 := by
        rcases c.dot with hnil | ⟨f, hf⟩
        · rw [hnil]
          exact Nat.two_pow_pos 31
        · have hprev : qname[f.length]? = some 46 := by
            rw [hwhole, hf]
            simp
          rw [hf, List.length_append, List.length_singleton] at hlen ⊢
          exact ih f.length (by omega) hprev
      have hgap : current.length ≤ 63 := hcurrent.2
      by_contra hbig
      refine hq ⟨i, hdot, ?_⟩
      omega

/-! ## The question -/

/-- The type and the class, in network order. -/
def numbers (question : Question) : List Byte :=
  netBytes question.qtype.toUInt16.toNat ++ netBytes question.qclass.toUInt16.toNat

theorem shortBytes_htons (v : Int16) : shortBytes (htons v) = netBytes v.toUInt16.toNat := by
  have hlt := v.toUInt16.toNat_lt
  unfold shortBytes netBytes
  rw [htons_bits]
  generalize v.toUInt16.toNat = n at hlt
  have hswap : (n / 256 + 256 * (n % 256)) / 256 = n % 256 := by omega
  have hlo : UInt8.ofNat (n / 256 + 256 * (n % 256)) = UInt8.ofNat (n / 256) :=
    ofNat_eq_iff.mpr (by omega)
  have hhi : UInt8.ofNat (n % 256) = UInt8.ofNat n := ofNat_eq_iff.mpr (by omega)
  rw [hswap, hlo, hhi]

/-- What `getQuestionStr` is for: it writes a name as the labels of its parts, with the numbers
right behind, and refuses a name that labels cannot be written for. -/
structure WrittenRight (question : Question) : Prop where
  written : Encodable question.qname → ∃ bytes, question.getQuestionStrInt = some bytes ∧
    readLabels bytes =
      some ((question.qname.splitOn 46).filter (fun part => part ≠ []), question.numbers)
  refused : ¬ Encodable question.qname → question.getQuestionStrInt = none

/-- Where the positions fit these are the bytes of `getQuestionStr` with a position that has no
bound. -/
theorem getQuestionStrInt_agrees (question : Question)
    (hq : ∀ i : Nat, question.qname[i]? = some 46 → i + 1 < 2 ^ 31) :
    question.getQuestionStrInt = some question.getQuestionStr.1 := by
  rw [getQuestionStrInt, nameVecInt_eq hq]
  rfl

/-- The labels of the parts, a zero byte, and the numbers. -/
theorem getQuestionStrInt_eq (question : Question)
    (hq : ∀ i : Nat, question.qname[i]? = some 46 → i + 1 < 2 ^ 31) :
    question.getQuestionStrInt =
      some ((question.qname.splitOn 46).flatMap label ++ 0 :: question.numbers) := by
  rw [getQuestionStrInt_agrees question hq, getQuestionStr]
  dsimp only
  rw [nameVec_eq, shortBytes_htons, shortBytes_htons]
  simp [numbers]

/-- A dot at the end leaves a zero byte in front of the numbers. -/
theorem trailing_read (question : Question) {parts : List (List Byte)}
    (hparts : question.qname.splitOn 46 = parts ++ [[]]) (hfine : ∀ part ∈ parts, Fine part) :
    readLabels ((question.qname.splitOn 46).flatMap label ++ 0 :: question.numbers) =
      some (parts, 0 :: question.numbers) := by
  have hempty : label [] = [0] := rfl
  rw [hparts, List.flatMap_append, List.flatMap_singleton, hempty, List.append_assoc]
  exact readLabels_written hfine _

/-- **The question as labels.** A question is written as it is meant exactly when all parts of
its name have from 1 to 63 bytes and the positions behind its dots fit an `int`, or they do not
fit and the name has no labels. -/
theorem question_iff (question : Question) :
    WrittenRight question ↔
      AllFine question.qname ∧ ¬ Wraps question.qname ∨
        ¬ Encodable question.qname ∧ Wraps question.qname := by
  have hthrows : question.getQuestionStrInt = none ↔ Wraps question.qname := by
    rw [← not_iff_not, ← nameVecInt_isSome_iff, getQuestionStrInt]
    cases nameVecInt question.qname <;> simp
  by_cases hq : Wraps question.qname
  · have hnone := hthrows.mpr hq
    constructor
    · intro h
      refine .inr ⟨fun hencodable => ?_, hq⟩
      obtain ⟨bytes, hbytes, -⟩ := h.written hencodable
      rw [hnone] at hbytes
      cases hbytes
    · rintro (⟨-, hfits⟩ | ⟨hencodable, -⟩)
      · exact absurd hq hfits
      · exact ⟨fun h => absurd h hencodable, fun _ => hnone⟩
  · have hsome := mt hthrows.mp hq
    constructor
    · intro h
      refine .inl ⟨?_, hq⟩
      have hencodable : Encodable question.qname := by
        by_contra hno
        exact hsome (h.refused hno)
      by_contra hfine
      obtain ⟨parts, hparts, hall⟩ := trailing_of_encodable hencodable hfine
      obtain ⟨bytes, hbytes, hread⟩ := h.written hencodable
      rw [getQuestionStrInt_eq question (dots_fit hencodable hq)] at hbytes
      rw [← Option.some.inj hbytes, trailing_read question hparts hall] at hread
      -- one byte more is behind the labels than there should be
      have hlonger := congrArg (fun r => r.2.length) (Option.some.inj hread)
      exact absurd hlonger (Nat.succ_ne_self question.numbers.length)
    · rintro (⟨hfine, -⟩ | ⟨-, hwraps⟩)
      · have hencodable := allFine_encodable hfine
        refine ⟨fun _ => ⟨_, getQuestionStrInt_eq question (dots_fit hencodable hq), ?_⟩,
          fun hno => absurd hencodable hno⟩
        have hall : (question.qname.splitOn 46).filter (fun part => part ≠ []) =
            question.qname.splitOn 46 := by
          rw [List.filter_eq_self]
          intro part hmem
          exact decide_eq_true (List.length_pos_iff.mp (hfine part hmem).1)
        rw [readLabels_written hfine, hall]
      · exact absurd hwraps hq

/-- The labels of the name `a.` are followed by a zero byte and then the type and the class. -/
theorem question_trailing_dot :
    getQuestionStrInt { qname := [97, 46], qtype := 1, qclass := 1 } =
        some [1, 97, 0, 0, 0, 1, 0, 1] ∧
      ¬ WrittenRight { qname := [97, 46], qtype := 1, qclass := 1 } := by
  have hbytes : getQuestionStrInt { qname := [97, 46], qtype := 1, qclass := 1 } =
      some [1, 97, 0, 0, 0, 1, 0, 1] := by decide +kernel
  have hsplit : ([97, 46] : List Byte).splitOn 46 = [[97], []] :=
    List.splitOn_append_cons_self_of_not_mem (by decide : (46 : Byte) ∉ [97]) []
  have hread : readLabels [1, 97, 0, 0, 0, 1, 0, 1] = some ([[97]], [0, 0, 1, 0, 1]) :=
    readLabels_written (by decide : ∀ part ∈ [[97]], Fine part) [0, 0, 1, 0, 1]
  have hencodable : Encodable [97, 46] := by
    unfold Encodable wanted
    rw [hsplit]
    decide
  refine ⟨hbytes, fun h => ?_⟩
  obtain ⟨bytes, hsome, hlabels⟩ := h.written hencodable
  rw [hbytes] at hsome
  rw [← Option.some.inj hsome, hread] at hlabels
  have hlonger := congrArg (fun r => r.2.length) (Option.some.inj hlabels)
  exact absurd hlonger (by decide)

end LearnSpace.Dns.Question
