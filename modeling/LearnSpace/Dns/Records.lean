import LearnSpace.Dns.Reply

/-!
# Records of a reply

A well-formed answer section is the encoding of resource records, whose owner names are labels
that end in a zero byte or in a pointer, or a pointer alone. `query` takes the reply when either
the id or the flags match, and makes an address of four bytes behind whatever it takes for the
fixed part of a record. What it returns are addresses of the reply just when every record is one
and the decoder skips every name as far as it goes (`onlyMatching_iff`).
-/

namespace LearnSpace.Dns

open Keel KvStore

/-! ## Owner names -/

/-- A label of a name. -/
structure Label where
  bytes : List Byte
  nonempty : 0 < bytes.length
  short : bytes.length ≤ 63

inductive Name where
  | pointer (hi lo : Byte) (top : hi &&& 0xc0 = 0xc0)
  | root
  | label (l : Label) (rest : Name)

namespace Name

def encode : Name → List Byte
  | pointer hi lo _ => [hi, lo]
  | root => [0]
  | label l rest => UInt8.ofNat l.bytes.length :: l.bytes ++ rest.encode

def isPointer : Name → Bool
  | pointer _ _ _ => true
  | root => false
  | label _ _ => false

theorem encode_pos (name : Name) : 0 < name.encode.length := by
  cases name <;> simp [encode]

/-- A length byte has its top bits clear. -/
theorem length_byte_top : ∀ n : Fin 64, UInt8.ofNat n.val &&& 0xc0 ≠ 0xc0 := by
  decide

/-- The test of the decoder tells pointers from the other names. -/
theorem nameSkip_encode (name : Name) (rest : List Byte) :
    nameSkip (name.encode ++ rest) = if name.isPointer then 2 else 0 := by
  cases name with
  | pointer hi lo top => simp [encode, isPointer, nameSkip, byteAt, top]
  | root => simp [encode, isPointer, nameSkip, byteAt]
  | label l tail =>
      have htop := length_byte_top ⟨l.bytes.length, Nat.lt_succ_of_le l.short⟩
      simp only [encode, isPointer, nameSkip, byteAt, List.cons_append, List.getD_cons_zero,
        if_neg htop, Bool.false_eq_true, if_false]

/-- Only a pointer takes the two bytes that are skipped for one. -/
theorem length_eq_two_iff (name : Name) : name.encode.length = 2 ↔ name.isPointer = true := by
  cases name with
  | pointer hi lo top => simp [encode, isPointer]
  | root => simp [encode, isPointer]
  | label l tail =>
      have hlabel := l.nonempty
      have htail := tail.encode_pos
      simp only [encode, isPointer, List.length_append, List.length_cons, Bool.false_eq_true,
        iff_false]
      omega

end Name

/-! ## Records -/

/-- A number of two bytes in network order. -/
def netBytes (n : Nat) : List Byte := [UInt8.ofNat (n / 256), UInt8.ofNat n]

structure Record where
  name : Name
  type : UInt16
  rclass : UInt16
  ttl : UInt32
  rdata : List Byte
  fits : rdata.length < 65536

namespace Record

/-- What follows the name. -/
def body (r : Record) : List Byte :=
  netBytes r.type.toNat ++ netBytes r.rclass.toNat ++
    (netBytes (r.ttl.toNat / 65536) ++ netBytes r.ttl.toNat) ++ netBytes r.rdata.length ++ r.rdata

def encode (r : Record) : List Byte := r.name.encode ++ r.body

/-- An A record. -/
def IsAddress (r : Record) : Prop := r.type = 1 ∧ r.rclass = 1 ∧ r.rdata.length = 4

instance (r : Record) : Decidable r.IsAddress := inferInstanceAs (Decidable (_ ∧ _ ∧ _))

/-- The address of an A record. -/
def address (r : Record) : List Byte :=
  dottedQuad (byteAt r.rdata 0) (byteAt r.rdata 1) (byteAt r.rdata 2) (byteAt r.rdata 3)

theorem length_body (r : Record) : r.body.length = 10 + r.rdata.length := by
  simp [body, netBytes]
  omega

theorem length_encode (r : Record) :
    r.encode.length = r.name.encode.length + 10 + r.rdata.length := by
  unfold encode
  rw [List.length_append, length_body, Nat.add_assoc]

/-- The length of the data stands in front of them. -/
theorem netShort_body (r : Record) (rest : List Byte) :
    netShort (r.body ++ rest) 8 = r.rdata.length := by
  have hfits := r.fits
  simp [netShort, byteAt, body, netBytes]
  omega

theorem byteAt_body (r : Record) (rest : List Byte) {i : Nat} (h : i < r.rdata.length) :
    byteAt (r.body ++ rest) (10 + i) = byteAt r.rdata i := by
  simp [byteAt, body, netBytes, Nat.add_comm 10 i, List.getElem?_append_left h]

end Record

/-! ## Answer sections -/

/-- A datagram with a well-formed answer section behind its front, which is the header and the
question of a reply. -/
structure AnswerSection (d : Datagram) where
  front : List Byte
  records : List Record
  rest : List Byte
  bytes_eq : d.bytes = front ++ records.flatMap Record.encode ++ rest
  count_eq : d.header.ancount.toInt = records.length

namespace AnswerSection

variable {d : Datagram} {s : AnswerSection d} {r r' : Record} {base i j k o w : Nat}

/-- Where a record starts. -/
def offset (s : AnswerSection d) (j : Nat) : Nat :=
  s.front.length + ((s.records.take j).flatMap Record.encode).length

/-- Where the name of a record ends. -/
def body (s : AnswerSection d) (j : Nat) (r : Record) : Nat :=
  s.offset j + r.name.encode.length

theorem offset_zero : s.offset 0 = s.front.length := by
  simp [offset]

theorem offset_succ (h : s.records[j]? = some r) :
    s.offset (j + 1) = s.body j r + 10 + r.rdata.length := by
  unfold body offset
  rw [List.take_add_one, h, Option.toList_some, List.flatMap_append, List.flatMap_singleton,
    List.length_append, Record.length_encode]
  omega

theorem offset_mono (h : i ≤ j) : s.offset i ≤ s.offset j := by
  have hsub : ((s.records.take i).flatMap Record.encode).Sublist
      ((s.records.take j).flatMap Record.encode) :=
    (List.take_sublist_take_left h).flatMap Record.encode
  exact Nat.add_le_add_left hsub.length_le _

/-- A record takes more bytes than a name that is skipped and its fixed part. -/
theorem offset_lt_succ (h : s.records[j]? = some r) : s.offset j + 10 < s.offset (j + 1) := by
  have hname := r.name.encode_pos
  rw [offset_succ h]
  unfold body
  omega

/-- The bytes behind the name of a record. -/
theorem drop_body (h : s.records[j]? = some r) :
    ∃ rest, d.bytes.drop (s.body j r) = r.body ++ rest := by
  obtain ⟨hlt, hget⟩ := List.getElem?_eq_some_iff.mp h
  have hrecords : s.records = s.records.take j ++ r :: s.records.drop (j + 1) := by
    rw [← hget, List.cons_getElem_drop_succ, List.take_append_drop]
  have hbytes : d.bytes =
      (s.front ++ (s.records.take j).flatMap Record.encode ++ r.name.encode) ++
        (r.body ++ ((s.records.drop (j + 1)).flatMap Record.encode ++ s.rest)) := by
    rw [s.bytes_eq]
    conv_lhs => rw [hrecords]
    simp [Record.encode, List.append_assoc]
  refine ⟨(s.records.drop (j + 1)).flatMap Record.encode ++ s.rest, ?_⟩
  rw [hbytes]
  apply List.drop_left'
  simp [body, offset, Nat.add_assoc]

theorem netShort_section (h : s.records[j]? = some r) :
    netShort d.bytes (s.body j r + 8) = r.rdata.length := by
  obtain ⟨rest, hrest⟩ := drop_body h
  rw [← netShort_drop, hrest]
  exact r.netShort_body rest

theorem byteAt_section (h : s.records[j]? = some r) (hi : i < r.rdata.length) :
    byteAt d.bytes (s.body j r + 10 + i) = byteAt r.rdata i := by
  obtain ⟨rest, hrest⟩ := drop_body h
  rw [Nat.add_assoc, ← byteAt_drop, hrest]
  exact r.byteAt_body rest hi

/-- A record is inside the datagram. -/
theorem body_le (h : s.records[j]? = some r) :
    s.body j r + 10 + r.rdata.length ≤ d.bytes.length := by
  obtain ⟨rest, hrest⟩ := drop_body h
  have hlen := congrArg List.length hrest
  rw [List.length_drop, List.length_append, r.length_body] at hlen
  have hname := r.name.encode_pos
  omega

/-! ## The loop on a section -/

theorem byteAt_reMsg (d : Datagram) (i : Nat) : byteAt d.reMsg i = byteAt d.bytes i := by
  simp only [byteAt, Datagram.reMsg, List.getD_eq_getElem?_getD]
  by_cases hi : i < d.bytes.length
  · rw [List.getElem?_append_left hi]
  · -- behind what was received the buffer is zero
    rw [List.getElem?_append_right (Nat.le_of_not_lt hi),
      List.getElem?_eq_none (Nat.le_of_not_lt hi), List.getElem?_replicate]
    split <;> rfl

theorem nameSkip_reMsg (d : Datagram) (base : Nat) :
    nameSkip (d.reMsg.drop base) = nameSkip (d.answers base) := by
  unfold nameSkip Datagram.answers
  rw [byteAt_drop, byteAt_drop, byteAt_reMsg]

/-- The iteration at a record is one for its data, when it is an A record. -/
theorem roundAt_record (h : s.records[j]? = some r) (hr : r.IsAddress)
    (hline : base + o + w = s.body j r) :
    (base : Int) + (roundAt (d.reMsg.drop base) w o).data = ((s.body j r + 10 : Nat) : Int) ∧
      (roundAt (d.reMsg.drop base) w o).next = ((o + w + 14 : Nat) : Int) ∧
        (roundAt (d.reMsg.drop base) w o).answer.rdata = r.address := by
  have hlen : netShort (d.reMsg.drop base) (o + w + 8) = 4 := by
    rw [netShort_drop, ← hr.2.2, ← netShort_section h, ← hline]
    unfold netShort
    rw [byteAt_reMsg, byteAt_reMsg]
    simp only [Nat.add_assoc]
  refine ⟨?_, ?_, ?_⟩
  · rw [← hline]
    unfold roundAt
    dsimp only
    omega
  · rw [roundAt_next (by omega), hlen]
  · have hdata : ∀ i, i < 4 → byteAt (d.reMsg.drop base) (o + w + (10 + i)) = byteAt r.rdata i := by
      intro i hi
      rw [byteAt_drop, byteAt_reMsg, ← byteAt_section h (by rw [hr.2.2]; exact hi), ← hline]
      simp only [Nat.add_assoc]
    show dottedQuad (byteAt _ (o + w + (10 + 0))) (byteAt _ (o + w + (10 + 1)))
      (byteAt _ (o + w + (10 + 2))) (byteAt _ (o + w + (10 + 3))) = _
    rw [hdata 0 (by omega), hdata 1 (by omega), hdata 2 (by omega), hdata 3 (by omega)]
    rfl

/-- An iteration whose address is the data of an A record. -/
def FromAddress (s : AnswerSection d) (base : Nat) (r : Round) : Prop :=
  ∃ j rec, s.records[j]? = some rec ∧ rec.IsAddress ∧
    (base : Int) + r.data = ((s.body j rec + 10 : Nat) : Int) ∧ r.answer.rdata = rec.address

/-- Where the decoder has to be for its iterations to be the records: behind the first name it
is where that ends, and it skips as much as each further name takes. -/
def Lined (s : AnswerSection d) (base : Nat) : Prop :=
  (∀ r, s.records[0]? = some r → base + nameSkip (d.answers base) = s.body 0 r) ∧
    ∀ j r, s.records[j + 1]? = some r → r.name.encode.length = nameSkip (d.answers base)

/-- From a record on, the loop makes addresses of A records that it is in line with. -/
theorem rounds_of_lined (hw : nameSkip (d.reMsg.drop base) = w) (n : Nat)
    (hn : j + n = s.records.length) (haddress : ∀ r ∈ s.records, r.IsAddress)
    (hhead : ∀ r, s.records[j]? = some r → base + o + w = s.body j r)
    (htail : ∀ i r, j < i → s.records[i]? = some r → r.name.encode.length = w) :
    ∃ rs, (Answer.rounds base n o).run d.reMsg = some rs ∧ ∀ r ∈ rs, s.FromAddress base r := by
  induction n generalizing j o with
  | zero => exact ⟨[], rfl, by simp⟩
  | succ n ih =>
      have hrec := List.getElem?_eq_getElem (l := s.records) (i := j) (by omega)
      generalize s.records[j] = rec at hrec
      have hr := haddress rec (List.mem_of_getElem? hrec)
      have hline := hhead rec hrec
      obtain ⟨hdata, hnext, hrdata⟩ := roundAt_record hrec hr hline
      have hnextLine : ∀ r, s.records[j + 1]? = some r →
          base + (o + w + 14) + w = s.body (j + 1) r := by
        intro r hsome
        have hlen := htail (j + 1) r (Nat.lt_succ_self j) hsome
        have hfour := hr.2.2
        rw [body, offset_succ hrec, hlen, ← hline, hfour]
        omega
      obtain ⟨tail, htailRun, hfrom⟩ := ih (by omega) hnextLine (by
        intro i r hi hsome
        exact htail i r (Nat.lt_of_succ_lt hi) hsome)
      refine ⟨roundAt (d.reMsg.drop base) w o :: tail, ?_, ?_⟩
      · have hfit : o + nameSkip (d.reMsg.drop base) + 13 < (d.reMsg.drop base).length := by
          have hle := body_le hrec
          have hfour := hr.2.2
          have hfits := d.fits
          rw [hw, List.length_drop, length_reMsg]
          omega
        rw [rounds_run hfit, hw, hnext, htailRun]
        rfl
      · intro r hmem
        cases List.mem_cons.mp hmem with
        | inl heq =>
            rw [heq]
            exact ⟨j, rec, hrec, hr, hdata, hrdata⟩
        | inr hmem => exact hfrom r hmem

/-- Behind a record, a place that is `w ≤ 2` bytes on is the end of a name only when the next
record has a name of so many bytes. -/
theorem next_record (h' : s.records[i]? = some r') (hw : w ≤ 2)
    (hbody : s.offset (j + 1) + w = s.body i r') :
    i = j + 1 ∧ r'.name.encode.length = w := by
  have hname := r'.name.encode_pos
  have hi : i = j + 1 := by
    rcases Nat.lt_trichotomy i (j + 1) with hlt | heq | hgt
    · have hmono : s.offset (i + 1) ≤ s.offset (j + 1) := offset_mono hlt
      rw [offset_succ h'] at hmono
      omega
    · exact heq
    · -- a whole record is in between
      have hbetween := List.getElem?_eq_getElem (l := s.records) (i := j + 1) (by
        have hlt := (List.getElem?_eq_some_iff.mp h').1
        omega)
      have hsucc := offset_lt_succ hbetween
      have hmono : s.offset (j + 1 + 1) ≤ s.offset i := offset_mono hgt
      unfold body at hbody
      omega
  refine ⟨hi, ?_⟩
  rw [body, hi] at hbody
  omega

/-- A loop that starts in line with an A record and makes only addresses of A records goes
through the records that follow. -/
theorem lined_of_rounds (hw : nameSkip (d.reMsg.drop base) = w) (n : Nat) {rs : List Round}
    (hrec : s.records[j]? = some r) (hr : r.IsAddress) (hline : base + o + w = s.body j r)
    (hrun : (Answer.rounds base (n + 1) o).run d.reMsg = some rs)
    (hfrom : ∀ r ∈ rs, s.FromAddress base r) :
    j + n < s.records.length ∧ ∀ i r', j < i → i ≤ j + n → s.records[i]? = some r' →
      r'.IsAddress ∧ r'.name.encode.length = w := by
  induction n generalizing j o r rs with
  | zero =>
      refine ⟨(List.getElem?_eq_some_iff.mp hrec).1, ?_⟩
      intro i r' hlt hle
      omega
  | succ n ih =>
      obtain ⟨-, tail, heq, htail⟩ := rounds_inv hrun
      rw [heq] at hfrom
      have hfromTail : ∀ r ∈ tail, s.FromAddress base r := by
        intro r hmem
        exact hfrom r (List.mem_cons_of_mem _ hmem)
      obtain ⟨-, hnext, -⟩ := roundAt_record hrec hr hline
      rw [hw, hnext] at htail
      -- the next iteration is at an A record, which can only be the next one
      obtain ⟨-, tail', heq', -⟩ := rounds_inv htail
      obtain ⟨i, rec, hi, haddress, hdata, -⟩ :=
        hfromTail _ (heq' ▸ List.mem_cons_self)
      have hw2 : w ≤ 2 := by
        rw [← hw]
        unfold nameSkip
        split <;> omega
      have hbody : s.offset (j + 1) + w = s.body i rec := by
        rw [offset_succ hrec, hr.2.2, ← hline]
        rw [hw] at hdata
        unfold roundAt at hdata
        dsimp only at hdata
        omega
      obtain ⟨hij, hname⟩ := next_record hi hw2 hbody
      subst hij
      have hline' : base + (o + w + 14) + w = s.body (j + 1) rec := by
        have hoff := offset_succ hrec
        have hfour := hr.2.2
        omega
      obtain ⟨hlt, hrest⟩ := ih hi haddress hline' htail hfromTail
      refine ⟨by omega, ?_⟩
      intro i r' hlt' hle hsome
      by_cases hfirst : i = j + 1
      · rw [hfirst, hi] at hsome
        cases hsome
        exact ⟨haddress, hname⟩
      · exact hrest i r' (by omega) (by omega) hsome

/-- A loop with as many iterations as there are records starts at the first one, if it makes only
addresses of A records, and goes through all of them. -/
theorem sound_of_rounds (hw : nameSkip (d.reMsg.drop base) = nameSkip (d.answers base))
    {n : Nat} {rs : List Round} (hn : s.records.length = n + 1)
    (hrun : (Answer.rounds base (n + 1) 0).run d.reMsg = some rs)
    (hfrom : ∀ r ∈ rs, s.FromAddress base r) :
    rs ≠ [] ∧ (∀ r ∈ s.records, r.IsAddress) ∧ s.Lined base := by
  obtain ⟨-, tail, heq, -⟩ := rounds_inv hrun
  have hmem : roundAt (d.reMsg.drop base) (nameSkip (d.reMsg.drop base)) 0 ∈ rs :=
    heq ▸ List.mem_cons_self
  obtain ⟨j, rec, hrec, haddress, hdata, -⟩ := hfrom _ hmem
  have hline : base + 0 + nameSkip (d.answers base) = s.body j rec := by
    rw [← hw]
    unfold roundAt at hdata
    dsimp only at hdata
    omega
  obtain ⟨hlt, hrest⟩ := lined_of_rounds hw n hrec haddress hline hrun hfrom
  have hzero : j = 0 := by omega
  subst hzero
  refine ⟨List.ne_nil_of_mem hmem, ?_, ?_, ?_⟩
  · intro r hr
    obtain ⟨i, hi⟩ := List.mem_iff_getElem?.mp hr
    have hlt := (List.getElem?_eq_some_iff.mp hi).1
    cases i with
    | zero =>
        rw [hrec] at hi
        cases hi
        exact haddress
    | succ i => exact (hrest (i + 1) r (Nat.succ_pos i) (by omega) hi).1
  · intro r hr
    rw [hrec] at hr
    cases hr
    exact hline
  · intro i r hi
    have hlt := (List.getElem?_eq_some_iff.mp hi).1
    exact (hrest (i + 1) r (Nat.succ_pos i) (by omega) hi).2

/-- The loop on a section of A records that it is in line with. -/
theorem rounds_of_sound (hw : nameSkip (d.reMsg.drop base) = nameSkip (d.answers base))
    (haddress : ∀ r ∈ s.records, r.IsAddress) (hlined : s.Lined base) :
    ∃ rs, (Answer.rounds base s.records.length 0).run d.reMsg = some rs ∧
      ∀ r ∈ rs, s.FromAddress base r := by
  apply rounds_of_lined hw s.records.length (Nat.zero_add _) haddress hlined.1
  intro i r hi hr
  cases i with
  | zero => exact absurd hi (Nat.lt_irrefl 0)
  | succ i => exact hlined.2 i r hr

/-- A section behind the question as it was sent is in line when all its names are pointers. -/
theorem lined_iff_pointers (hfront : s.front.length = base) :
    s.Lined base ↔ ∀ r ∈ s.records, r.name.isPointer = true := by
  have hanswers : d.answers base = s.records.flatMap Record.encode ++ s.rest := by
    unfold Datagram.answers
    rw [s.bytes_eq, List.append_assoc]
    exact List.drop_left' hfront
  have hskip : ∀ r, s.records[0]? = some r →
      nameSkip (d.answers base) = if r.name.isPointer then 2 else 0 := by
    intro r hr
    rw [hanswers]
    cases hrecords : s.records with
    | nil => simp [hrecords] at hr
    | cons first tail =>
        rw [hrecords] at hr
        have heq : first = r := Option.some.inj hr
        rw [heq, List.flatMap_cons, Record.encode, List.append_assoc, List.append_assoc]
        exact r.name.nameSkip_encode _
  have hbody : ∀ r, s.body 0 r = base + r.name.encode.length := by
    intro r
    rw [body, offset_zero, hfront]
  constructor
  · intro hlined r hmem
    obtain ⟨j, hj⟩ := List.mem_iff_getElem?.mp hmem
    have hpos : 0 < s.records.length := Nat.zero_lt_of_lt (List.getElem?_eq_some_iff.mp hj).1
    have hfirst := List.getElem?_eq_getElem hpos
    generalize s.records[0] = first at hfirst
    have hline := hlined.1 first hfirst
    have hname := first.name.encode_pos
    have hptr : nameSkip (d.answers base) = 2 := by
      have hskip := hskip first hfirst
      split at hskip
      · exact hskip
      · rw [hbody] at hline
        omega
    cases j with
    | zero =>
        have hline := hlined.1 r hj
        rw [hbody] at hline
        exact r.name.length_eq_two_iff.mp (by omega)
    | succ j => exact r.name.length_eq_two_iff.mp ((hlined.2 j r hj).trans hptr)
  · intro hptr
    have htwo : ∀ (j : Nat) (r : Record), s.records[j]? = some r → r.name.encode.length = 2 := by
      intro j r hj
      exact r.name.length_eq_two_iff.mpr (hptr r (List.mem_of_getElem? hj))
    refine ⟨?_, ?_⟩
    · intro r hr
      rw [hskip r hr, if_pos (hptr r (List.mem_of_getElem? hr)), hbody, htwo 0 r hr]
    · intro j r hj
      have hpos : 0 < s.records.length := Nat.zero_lt_of_lt (List.getElem?_eq_some_iff.mp hj).1
      have hfirst := List.getElem?_eq_getElem hpos
      rw [htwo (j + 1) r hj, hskip _ hfirst, if_pos (hptr _ (List.mem_of_getElem? hfirst))]

end AnswerSection

/-! ## The query -/

/-- What `query` makes of an answer. -/
def Round.ret (r : Round) : Ret where
  vaild := true
  ip := r.answer.rdata

/-- The iterations of the loop on a reply, none when it is refused. -/
def replyRounds (id : Int16) (msgSize : Nat) (d : Datagram) : Option (List Round) :=
  if d.header.Foreign id then some []
  else (Answer.rounds msgSize d.header.ancount.toInt.toNat 0).run d.reMsg

/-- The query returns what the iterations make. -/
theorem query_eq (domainName : List Byte) (id : Int16) (d : Datagram) :
    query domainName id (some d) =
      (replyRounds id (msg domainName id).length d).map (List.map Round.ret) := by
  unfold query replyRounds decodeReply
  simp only [Reads.run_bind, header_run, Option.bind_some]
  by_cases hid : d.header.Foreign id
  · simp [if_pos hid]
  · rw [if_neg hid, if_neg hid, Answer.getAnswerFromChar, Reads.run_bind]
    cases (Answer.rounds (msg domainName id).length d.header.ancount.toInt.toNat 0).run d.reMsg with
    | none => rfl
    | some rs => simp [Round.ret, Function.comp_def]

/-- The query returns addresses of the matching reply only: it returns, it returns something only
from a reply with the id it sent, and whatever it returns was made of the data of an A record. -/
def OnlyMatching (domainName : List Byte) (id : Int16) (d : Datagram) (s : AnswerSection d) :
    Prop :=
  ∃ rs, replyRounds id (msg domainName id).length d = some rs ∧
    query domainName id (some d) = some (rs.map Round.ret) ∧
    (rs.map Round.ret ≠ [] → d.header.id = id) ∧
    ∀ r ∈ rs, s.FromAddress (msg domainName id).length r

/-- **A query returns addresses of the matching reply only, exactly when the reply is refused,
has no records, or has the id that was sent, A records only, and names the decoder goes past.** -/
theorem onlyMatching_iff (domainName : List Byte) (id : Int16) (d : Datagram)
    (s : AnswerSection d) :
    OnlyMatching domainName id d s ↔
      d.header.Foreign id ∨ s.records = [] ∨
        (d.header.id = id ∧ (∀ r ∈ s.records, r.IsAddress) ∧
          s.Lined (msg domainName id).length) := by
  have hquery := query_eq domainName id d
  have hcount : d.header.ancount.toInt.toNat = s.records.length := by
    rw [s.count_eq]
    exact Int.toNat_natCast _
  unfold OnlyMatching
  generalize (msg domainName id).length = base at hquery ⊢
  unfold replyRounds at hquery ⊢
  rw [hcount] at hquery ⊢
  by_cases hid : d.header.Foreign id
  · rw [if_pos hid] at hquery ⊢
    exact iff_of_true ⟨[], rfl, hquery, by simp, by simp⟩ (Or.inl hid)
  · rw [if_neg hid] at hquery ⊢
    rw [or_iff_right hid]
    have hskip := AnswerSection.nameSkip_reMsg d base
    constructor
    · intro h
      obtain ⟨rs, hrun, -, hmatch, hfrom⟩ := h
      cases hn : s.records.length with
      | zero => exact Or.inl (List.length_eq_zero_iff.mp hn)
      | succ n =>
          rw [hn] at hrun
          obtain ⟨hne, haddress, hlined⟩ := AnswerSection.sound_of_rounds hskip hn hrun hfrom
          refine Or.inr ⟨hmatch ?_, haddress, hlined⟩
          intro hnil
          exact hne (List.map_eq_nil_iff.mp hnil)
    · intro h
      cases h with
      | inl hnone =>
          rw [hnone] at hquery ⊢
          exact ⟨[], rfl, hquery, by simp, by simp⟩
      | inr h =>
          obtain ⟨hmatch, haddress, hlined⟩ := h
          obtain ⟨rs, hrs, hfrom⟩ := AnswerSection.rounds_of_sound hskip haddress hlined
          rw [hrs] at hquery ⊢
          refine ⟨rs, rfl, hquery, ?_, hfrom⟩
          intro _
          exact hmatch

/-- A CNAME record in front of the A record is returned as an address, `3.119.119.119`. -/
theorem onlyMatching_breaks :
    ¬ OnlyMatching [97] 5
      ⟨[0, 5, 0x81, 0x80, 0, 1, 0, 2, 0, 0, 0, 0, 1, 97, 0, 0, 1, 0, 1,
        0xc0, 12, 0, 5, 0, 1, 0, 0, 0, 60, 0, 6, 3, 119, 119, 119, 0xc0, 12,
        0xc0, 31, 0, 1, 0, 1, 0, 0, 0, 60, 0, 4, 1, 2, 3, 4], by decide⟩
      { front := [0, 5, 0x81, 0x80, 0, 1, 0, 2, 0, 0, 0, 0, 1, 97, 0, 0, 1, 0, 1]
        records := [
          ⟨.pointer 0xc0 12 (by decide), 5, 1, 60, [3, 119, 119, 119, 0xc0, 12], by decide⟩,
          ⟨.pointer 0xc0 31 (by decide), 1, 1, 60, [1, 2, 3, 4], by decide⟩]
        rest := []
        bytes_eq := by decide
        count_eq := by decide +kernel } := by
  intro h
  obtain ⟨rs, hrs, -, -, hfrom⟩ := h
  have hfirst : rs[0]?.map Round.data = some 12 := by
    rw [← Option.some.inj hrs]
    decide +kernel
  obtain ⟨r, hr, hdata⟩ := Option.map_eq_some_iff.mp hfirst
  obtain ⟨j, rec, hrec, haddress, hpos, -⟩ := hfrom r (List.mem_of_getElem? hr)
  rw [hdata] at hpos
  -- the only A record is the second one, and its data are not there
  match j with
  | 0 =>
      cases hrec
      revert haddress
      decide
  | 1 =>
      cases hrec
      revert hpos
      decide +kernel
  | j + 2 => cases hrec

end LearnSpace.Dns
