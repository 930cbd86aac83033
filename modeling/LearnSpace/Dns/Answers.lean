import Mathlib.Algebra.GroupWithZero.Nat
import LearnSpace.Dns.Records

/-!
# Decoding an answer section

`getAnswerFromChar` decides by the first byte of the whole section how many bytes it skips for the
owner name of every record: two, or none. So it looks for the fixed part of a record behind that
many bytes for each name so far, whatever the names are, and its answers are those of the records
exactly when what it finds there are the bytes of the records (`answers_iff`). With pointers alone
it does (`found_of_pointers`).
-/

namespace LearnSpace.Dns

open Keel KvStore

variable {sec : List Byte} {i n w o : Nat} {r : Record}

/-! ## The text of an address -/

theorem dot_notMem_decimal (n : Nat) : (46 : Byte) ∉ decimal n := by
  obtain ⟨ds, hds, -, hlt, -⟩ := decimal_eq n
  rw [hds, List.mem_map]
  rintro ⟨d, hd, he⟩
  have hdigit := (digitChar_spec d (hlt d hd)).1
  rw [he] at hdigit
  exact absurd hdigit (by decide)

theorem decimal_byte_inj {a b : Byte} : decimal a.toNat = decimal b.toNat ↔ a = b := by
  constructor
  · intro h
    have ha := a.toNat_lt
    have hb := b.toNat_lt
    have hread := atoi_decimal (show a.toNat < 2 ^ 31 by omega) []
    rw [h, atoi_decimal (show b.toNat < 2 ^ 31 by omega) []] at hread
    exact (UInt8.toNat_inj.mp (Int.ofNat_inj.mp (Option.some.inj hread))).symm
  · intro h
    rw [h]

theorem dottedQuad_splitOn (b₀ b₁ b₂ b₃ : Byte) :
    (dottedQuad b₀ b₁ b₂ b₃).splitOn 46 =
      [decimal b₀.toNat, decimal b₁.toNat, decimal b₂.toNat, decimal b₃.toNat] := by
  have hdots : dottedQuad b₀ b₁ b₂ b₃ = decimal b₀.toNat ++ 46 :: (decimal b₁.toNat ++
      46 :: (decimal b₂.toNat ++ 46 :: decimal b₃.toNat)) := by
    simp [dottedQuad]
  rw [hdots, List.splitOn_append_cons_self_of_not_mem (dot_notMem_decimal _),
    List.splitOn_append_cons_self_of_not_mem (dot_notMem_decimal _),
    List.splitOn_append_cons_self_of_not_mem (dot_notMem_decimal _),
    List.splitOn_eq_singleton (dot_notMem_decimal _)]

/-- Different bytes make different texts. -/
theorem dottedQuad_inj {a₀ a₁ a₂ a₃ b₀ b₁ b₂ b₃ : Byte} :
    dottedQuad a₀ a₁ a₂ a₃ = dottedQuad b₀ b₁ b₂ b₃ ↔
      a₀ = b₀ ∧ a₁ = b₁ ∧ a₂ = b₂ ∧ a₃ = b₃ := by
  constructor
  · intro h
    have hparts := congrArg (List.splitOn 46) h
    rw [dottedQuad_splitOn, dottedQuad_splitOn] at hparts
    simpa [decimal_byte_inj] using hparts
  · rintro ⟨rfl, rfl, rfl, rfl⟩
    rfl

/-! ## Numbers in network order -/

/-- Two bytes of a section are a number in network order when they are its bytes. -/
theorem netShort_eq_iff (hn : n < 65536) :
    netShort sec i = n ↔
      byteAt sec i = UInt8.ofNat (n / 256) ∧ byteAt sec (i + 1) = UInt8.ofNat n := by
  have hhi := (byteAt sec i).toNat_lt
  have hlo := (byteAt sec (i + 1)).toNat_lt
  unfold netShort
  rw [← UInt8.toNat_inj, ← UInt8.toNat_inj, UInt8.toNat_ofNat', UInt8.toNat_ofNat']
  omega

theorem intOf_toNat (b₀ b₁ b₂ b₃ : Byte) :
    (intOf b₀ b₁ b₂ b₃).toNat =
      b₀.toNat + 256 * b₁.toNat + 65536 * b₂.toNat + 16777216 * b₃.toNat := by
  have h₀ := b₀.toNat_lt
  have h₁ := b₁.toNat_lt
  have h₂ := b₂.toNat_lt
  have h₃ := b₃.toNat_lt
  rw [intOf, UInt32.toNat_ofNat']
  omega

/-- `ntohl` turns the bytes round. -/
theorem ntohl_intOf (b₀ b₁ b₂ b₃ : Byte) : ntohl (intOf b₀ b₁ b₂ b₃) = intOf b₃ b₂ b₁ b₀ := by
  have h₀ := b₀.toNat_lt
  have h₁ := b₁.toNat_lt
  have h₂ := b₂.toNat_lt
  have h₃ := b₃.toNat_lt
  unfold ntohl
  rw [intOf_toNat]
  congr 1 <;> rw [← UInt8.toNat_inj, UInt8.toNat_ofNat'] <;> omega

/-- The time to live, from its two halves. -/
theorem answerAt_ttl (sec : List Byte) (i : Nat) :
    (answerAt sec i).ttl.toNat = 65536 * netShort sec (i + 4) + netShort sec (i + 6) := by
  show (ntohl (intOf (byteAt sec (i + 4)) (byteAt sec (i + 4 + 1)) (byteAt sec (i + 6))
    (byteAt sec (i + 6 + 1)))).toNat = _
  unfold netShort
  rw [ntohl_intOf, intOf_toNat]
  omega

/-! ## One record -/

namespace Record

/-- An A record of four bytes, of any class. -/
def IsQuad (r : Record) : Prop := r.type = 1 ∧ r.rdata.length = 4

instance (r : Record) : Decidable r.IsQuad := inferInstanceAs (Decidable (_ ∧ _))

/-- The bytes of a record that its answer is made of: its fixed part, and an address. -/
def span (r : Record) : Nat := if r.IsQuad then 14 else 10

/-- The answer of a record. -/
structure Shown (r : Record) (answer : Answer) : Prop where
  type : answer.type.toUInt16 = r.type
  aclass : answer.aclass.toUInt16 = r.rclass
  ttl : answer.ttl = r.ttl
  rdataLen : answer.rdataLen.toInt = r.rdata.length
  rdata : r.IsQuad → answer.rdata = r.address

/-- The bytes at `i` are those of the record. -/
def At (r : Record) (sec : List Byte) (i : Nat) : Prop :=
  ∀ k, k < r.span → byteAt sec (i + k) = byteAt r.body k

/-- The fixed part as numbers. -/
theorem fixed_iff (r : Record) (sec : List Byte) (i : Nat) :
    (∀ k, k < 10 → byteAt sec (i + k) = byteAt r.body k) ↔
      netShort sec i = r.type.toNat ∧ netShort sec (i + 2) = r.rclass.toNat ∧
        netShort sec (i + 4) = r.ttl.toNat / 65536 ∧
          netShort sec (i + 6) = r.ttl.toNat % 65536 ∧ netShort sec (i + 8) = r.rdata.length := by
  have htype := r.type.toNat_lt
  have hclass := r.rclass.toNat_lt
  have httl := r.ttl.toNat_lt
  have hlen := r.fits
  have hhalf : UInt8.ofNat (r.ttl.toNat % 65536) = UInt8.ofNat r.ttl.toNat :=
    ofNat_eq_iff.mpr (by omega)
  have hhalf' : UInt8.ofNat (r.ttl.toNat % 65536 / 256) = UInt8.ofNat (r.ttl.toNat / 256) :=
    ofNat_eq_iff.mpr (by omega)
  rw [netShort_eq_iff (show r.type.toNat < 65536 by omega),
    netShort_eq_iff (show r.rclass.toNat < 65536 by omega),
    netShort_eq_iff (show r.ttl.toNat / 65536 < 65536 by omega),
    netShort_eq_iff (show r.ttl.toNat % 65536 < 65536 by omega), netShort_eq_iff hlen, hhalf,
    hhalf']
  constructor
  · intro h
    exact ⟨⟨h 0 (by omega), h 1 (by omega)⟩, ⟨h 2 (by omega), h 3 (by omega)⟩,
      ⟨h 4 (by omega), h 5 (by omega)⟩, ⟨h 6 (by omega), h 7 (by omega)⟩,
      ⟨h 8 (by omega), h 9 (by omega)⟩⟩
  · rintro ⟨⟨h0, h1⟩, ⟨h2, h3⟩, ⟨h4, h5⟩, ⟨h6, h7⟩, ⟨h8, h9⟩⟩ k hk
    interval_cases k <;> assumption

/-- The numbers of an answer are those of the section. -/
theorem numbers_iff (hshort : r.rdata.length < 32768) :
    ((answerAt sec i).type.toUInt16 = r.type ∧ (answerAt sec i).aclass.toUInt16 = r.rclass ∧
      (answerAt sec i).ttl = r.ttl ∧ (answerAt sec i).rdataLen.toInt = r.rdata.length) ↔
        ∀ k, k < 10 → byteAt sec (i + k) = byteAt r.body k := by
  have htype : (answerAt sec i).type.toUInt16.toNat = netShort sec i := ntohs_shortOf _ _
  have hclass : (answerAt sec i).aclass.toUInt16.toNat = netShort sec (i + 2) :=
    ntohs_shortOf _ _
  have hlow := netShort_lt sec (i + 6)
  have hlen : (answerAt sec i).rdataLen.toInt = r.rdata.length ↔
      netShort sec (i + 8) = r.rdata.length := by
    have hlt := netShort_lt sec (i + 8)
    rw [rdataLen_toInt]
    split <;> omega
  have httl : (answerAt sec i).ttl = r.ttl ↔
      netShort sec (i + 4) = r.ttl.toNat / 65536 ∧ netShort sec (i + 6) = r.ttl.toNat % 65536 := by
    rw [← UInt32.toNat_inj, answerAt_ttl]
    omega
  rw [fixed_iff, ← UInt16.toNat_inj, htype, ← UInt16.toNat_inj, hclass, httl, hlen, and_assoc]

/-- The text of an answer is that of its four bytes. -/
theorem address_iff (hquad : r.IsQuad) :
    (answerAt sec i).rdata = r.address ↔
      ∀ k, 10 ≤ k → k < 14 → byteAt sec (i + k) = byteAt r.body k := by
  have hdata : ∀ k, k < 4 → byteAt r.body (10 + k) = byteAt r.rdata k := by
    intro k hk
    have hbyte := r.byteAt_body [] (show k < r.rdata.length by rw [hquad.2]; exact hk)
    rwa [List.append_nil] at hbyte
  show dottedQuad _ _ _ _ = dottedQuad _ _ _ _ ↔ _
  rw [dottedQuad_inj, ← hdata 0 (by omega), ← hdata 1 (by omega), ← hdata 2 (by omega),
    ← hdata 3 (by omega)]
  constructor
  · rintro ⟨h0, h1, h2, h3⟩ k hlow hhigh
    interval_cases k <;> assumption
  · intro h
    exact ⟨h 10 (by omega) (by omega), h 11 (by omega) (by omega), h 12 (by omega) (by omega),
      h 13 (by omega) (by omega)⟩

/-- **The decoder's answer is that of the record exactly when it looks at the bytes of the
record.** -/
theorem shown_iff (hshort : r.rdata.length < 32768) :
    r.Shown (answerAt sec i) ↔ r.At sec i := by
  constructor
  · intro h k hk
    unfold span at hk
    by_cases hlow : k < 10
    · exact (numbers_iff hshort).mp ⟨h.type, h.aclass, h.ttl, h.rdataLen⟩ k hlow
    · split at hk
      · rename_i hquad
        exact (address_iff hquad).mp (h.rdata hquad) k (by omega) hk
      · exact absurd hk hlow
  · intro h
    have hten : ∀ k, k < 10 → byteAt sec (i + k) = byteAt r.body k := by
      intro k hk
      apply h k
      unfold span
      split <;> omega
    obtain ⟨htype, hclass, httl, hlen⟩ := (numbers_iff hshort).mpr hten
    refine ⟨htype, hclass, httl, hlen, fun hquad => ?_⟩
    rw [address_iff hquad]
    intro k _ hk
    apply h k
    rwa [span, if_pos hquad]

end Record

/-! ## The loop -/

/-- What the decoder needs at an offset to take the record there: the fixed part and four bytes
of memory behind it, the bytes of the record, and an offset behind it that is an `int`. -/
structure Found (sec : List Byte) (w o : Nat) (r : Record) : Prop where
  inside : o + w + 13 < sec.length
  bytes : r.At sec (o + w)
  bounded : o + w + 10 + r.rdata.length < 2 ^ 31

/-- The offset in front of a record, if each name takes `w` bytes. -/
def offsetAt (w : Nat) (records : List Record) (j : Nat) : Nat :=
  ((records.take j).map fun r => w + 10 + r.rdata.length).sum

theorem offsetAt_succ (w : Nat) (r : Record) (records : List Record) (j : Nat) :
    offsetAt w (r :: records) (j + 1) = w + 10 + r.rdata.length + offsetAt w records j := by
  rw [offsetAt, List.take_succ_cons, List.map_cons, List.sum_cons]
  rfl

/-- The iterations are right from an offset on. -/
def RoundsRight (mem : List Byte) (start o : Nat) (records : List Record) : Prop :=
  ∃ rs, (Answer.rounds start records.length o).run mem = some rs ∧
    List.Forall₂ Record.Shown records (rs.map Round.answer) ∧ ∀ r ∈ rs, r.next < 2 ^ 31

/-- Where the record is shown, the offset moves behind it. -/
theorem next_eq {sec : List Byte} (h : r.Shown (answerAt sec (o + w))) :
    (roundAt sec w o).next = ((o + (w + 10 + r.rdata.length) : Nat) : Int) := by
  have hlen := h.rdataLen
  unfold roundAt
  dsimp only
  omega

/-- One iteration finds its record, and the others are right behind it. -/
theorem roundsRight_cons (mem : List Byte) (start : Nat) {records : List Record}
    (hshort : r.rdata.length < 32768) (o : Nat) :
    RoundsRight mem start o (r :: records) ↔
      Found (mem.drop start) (nameSkip (mem.drop start)) o r ∧
        RoundsRight mem start (o + (nameSkip (mem.drop start) + 10 + r.rdata.length)) records := by
  constructor
  · rintro ⟨rs, hrun, hshown, hbounded⟩
    obtain ⟨hfit, tail, heq, htail⟩ := rounds_inv hrun
    rw [heq, List.map_cons, List.forall₂_cons] at hshown
    rw [heq, List.forall_mem_cons] at hbounded
    have hnext := next_eq hshown.1
    rw [hnext] at htail hbounded
    refine ⟨⟨hfit, (Record.shown_iff hshort).mp hshown.1, ?_⟩, tail, htail, hshown.2, hbounded.2⟩
    have hlt := hbounded.1
    omega
  · rintro ⟨hfound, tail, htail, hshown, hbounded⟩
    have hfirst := (Record.shown_iff hshort).mpr hfound.bytes
    have hnext := next_eq hfirst
    have hlt := hfound.bounded
    refine ⟨roundAt (mem.drop start) (nameSkip (mem.drop start)) o :: tail, ?_,
      .cons hfirst hshown, ?_⟩
    · rw [List.length_cons, rounds_run hfound.inside, hnext, htail]
      rfl
    · rw [List.forall_mem_cons, hnext]
      refine ⟨?_, hbounded⟩
      omega

/-- **The iterations are right exactly when each finds its record.** -/
theorem roundsRight_iff (mem : List Byte) (start : Nat) {records : List Record}
    (hshort : ∀ r ∈ records, r.rdata.length < 32768) (o : Nat) :
    RoundsRight mem start o records ↔
      ∀ j r, records[j]? = some r → Found (mem.drop start) (nameSkip (mem.drop start))
        (o + offsetAt (nameSkip (mem.drop start)) records j) r := by
  induction records generalizing o with
  | nil =>
      refine iff_of_true ⟨[], rfl, .nil, by simp⟩ ?_
      intro j r hj
      cases hj
  | cons r records ih =>
      rw [List.forall_mem_cons] at hshort
      rw [roundsRight_cons mem start hshort.1, ih hshort.2]
      constructor
      · rintro ⟨hfirst, hrest⟩ j r' hj
        cases j with
        | zero =>
            cases hj
            exact hfirst
        | succ j =>
            rw [offsetAt_succ, ← Nat.add_assoc]
            exact hrest j r' hj
      · intro h
        refine ⟨h 0 r rfl, fun j r' hj => ?_⟩
        have hj' := h (j + 1) r' hj
        rwa [offsetAt_succ, ← Nat.add_assoc] at hj'

/-! ## The section -/

/-- An answer section in memory, whose data are short enough for a length that is not negative. -/
structure EncodedAnswers where
  front : List Byte
  records : List Record
  rest : List Byte
  short : ∀ r ∈ records, r.rdata.length < 32768

namespace EncodedAnswers

/-- The section, and the memory behind it. -/
def encoded (s : EncodedAnswers) : List Byte := s.records.flatMap Record.encode ++ s.rest

def memory (s : EncodedAnswers) : List Byte := s.front ++ s.encoded

/-- What `getAnswerFromChar` is for: one answer for each record, in order. It must come to its end
inside the memory, with an offset that is an `int`. -/
def DecodedRight (s : EncodedAnswers) : Prop :=
  ∃ answers, (Answer.getAnswerFromChar s.front.length s.records.length).run s.memory =
      some answers ∧
    List.Forall₂ Record.Shown s.records answers ∧
    ∀ rs, (Answer.rounds s.front.length s.records.length 0).run s.memory = some rs →
      ∀ r ∈ rs, r.next < 2 ^ 31

theorem decodedRight_iff (s : EncodedAnswers) :
    s.DecodedRight ↔ RoundsRight s.memory s.front.length 0 s.records := by
  unfold DecodedRight RoundsRight Answer.getAnswerFromChar
  rw [Int.toNat_natCast, Reads.run_bind]
  cases (Answer.rounds s.front.length s.records.length 0).run s.memory <;> simp

/-- **Decoding an answer section.** The answers are those of the records exactly when the decoder,
with as many bytes for every name as the first byte of the section makes it skip, looks at the
bytes of each record. -/
theorem answers_iff (s : EncodedAnswers) :
    s.DecodedRight ↔ ∀ j r, s.records[j]? = some r →
      Found s.encoded (nameSkip s.encoded) (offsetAt (nameSkip s.encoded) s.records j) r := by
  have hsection : s.memory.drop s.front.length = s.encoded := List.drop_left
  rw [decodedRight_iff, roundsRight_iff _ _ s.short, hsection]
  simp only [Nat.zero_add]

/-- A record stands at its offset, when its name and those in front of it take `w` bytes. -/
theorem drop_offset {records : List Record} (hnames : ∀ r ∈ records, r.name.encode.length = w)
    {j : Nat} {r : Record} (hj : records[j]? = some r) (rest : List Byte) :
    ∃ behind, (records.flatMap Record.encode ++ rest).drop (offsetAt w records j + w) =
      r.body ++ (behind ++ rest) := by
  induction records generalizing j with
  | nil => cases hj
  | cons r' records ih =>
      rw [List.forall_mem_cons] at hnames
      obtain ⟨hname, hnames⟩ := hnames
      cases j with
      | zero =>
          cases hj
          have hzero : offsetAt w (r :: records) 0 + w = w := Nat.zero_add w
          refine ⟨records.flatMap Record.encode, ?_⟩
          rw [List.flatMap_cons, Record.encode, List.append_assoc, List.append_assoc, hzero]
          exact List.drop_left' hname
      | succ j =>
          obtain ⟨behind, hbehind⟩ := ih hnames hj
          have hlength : r'.encode.length = w + 10 + r'.rdata.length := by
            rw [Record.length_encode, hname]
          refine ⟨behind, ?_⟩
          rw [← hbehind, offsetAt_succ, Nat.add_assoc (w + 10 + r'.rdata.length), ← hlength,
            List.flatMap_cons, List.append_assoc, List.drop_length_add_append]

/-- The decoder finds a record that stands where it looks. -/
theorem found_of_drop {rest : List Byte} (h : sec.drop (o + w) = r.body ++ rest)
    (hrest : 4 ≤ rest.length) (hsize : sec.length < 2 ^ 31) : Found sec w o r := by
  have hlength := congrArg List.length h
  rw [List.length_drop, List.length_append, r.length_body] at hlength
  refine ⟨by omega, ?_, by omega⟩
  intro k hk
  have hspan : r.span ≤ r.body.length := by
    rw [r.length_body]
    unfold Record.span
    split
    · rename_i hquad
      rw [hquad.2]
    · omega
  have hin : k < r.body.length := Nat.lt_of_lt_of_le hk hspan
  rw [← byteAt_drop, h]
  simp [byteAt, List.getElem?_append_left hin]

/-- **With pointers for names, and four bytes of memory behind it, a section is decoded.** -/
theorem decoded_of_pointers (s : EncodedAnswers)
    (hptr : ∀ r ∈ s.records, r.name.isPointer = true) (hrest : 4 ≤ s.rest.length)
    (hsize : s.encoded.length < 2 ^ 31) : s.DecodedRight := by
  have hsection : s.memory.drop s.front.length = s.encoded := List.drop_left
  rw [decodedRight_iff, roundsRight_iff _ _ s.short, hsection]
  intro j r hj
  have htwo : ∀ r ∈ s.records, r.name.encode.length = 2 := by
    intro r hr
    exact r.name.length_eq_two_iff.mpr (hptr r hr)
  have hskip : nameSkip s.encoded = 2 := by
    unfold encoded
    cases hrecords : s.records with
    | nil =>
        rw [hrecords] at hj
        cases hj
    | cons first records =>
        have hfirst := hptr first (by rw [hrecords]; exact List.mem_cons_self)
        rw [List.flatMap_cons, Record.encode, List.append_assoc, List.append_assoc,
          Name.nameSkip_encode, if_pos hfirst]
  rw [hskip, Nat.zero_add]
  obtain ⟨behind, hbehind⟩ := drop_offset htwo hj s.rest
  apply found_of_drop hbehind _ hsize
  rw [List.length_append]
  omega

/-- Behind a pointer the decoder skips two bytes of the label `a` too, and takes its zero byte for
the front of the type. -/
theorem decoded_breaks :
    ¬ DecodedRight
      { front := []
        records := [
          ⟨.pointer 0xc0 12 (by decide), 1, 1, 60, [1, 2, 3, 4], by decide⟩,
          ⟨.label ⟨[97], by decide, by decide⟩ .root, 1, 1, 60, [5, 6, 7, 8], by decide⟩]
        rest := [0, 0, 0, 0]
        short := by decide } := by
  rintro ⟨answers, hrun, hshown, -⟩
  have htypes : answers.map (fun answer => answer.type.toUInt16) = [1, 0] := by
    rw [← Option.some.inj hrun]
    decide +kernel
  obtain ⟨first, tail, hfirst, htail, rfl⟩ := List.forall₂_cons_left_iff.mp hshown
  obtain ⟨second, tail, hsecond, -, rfl⟩ := List.forall₂_cons_left_iff.mp htail
  have htype : second.type.toUInt16 = 0 := by
    simpa using (List.cons.inj (List.cons.inj htypes).2).1
  rw [hsecond.type] at htype
  exact absurd htype (by decide)

end EncodedAnswers

end LearnSpace.Dns
