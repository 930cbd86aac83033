import Mathlib.Logic.Function.Iterate
import LearnSpace.Dns.Reply

/-!
# Encoding one object again

The encoders convert the fields of their own object, and convert them back the next time. What
they write the first time is decoded to the fields there were (`Header.decode_encode`), and an
object encoded twice is the object it was (`Header.encode_twice`). So the encodings alternate
between two, and they are all the same just where converting a field changes nothing
(`encoding_iff`).
-/

namespace LearnSpace.Dns

open Keel KvStore

/-! ## Converting a field -/

/-- The two bytes of a `short` are equal. -/
def EqualBytes (v : Int16) : Prop := v.toUInt16.toNat / 256 = v.toUInt16.toNat % 256

instance (v : Int16) : Decidable (EqualBytes v) := inferInstanceAs (Decidable (_ = _))

/-- A `short` is its bits. -/
theorem int16_ext {v w : Int16} (h : v.toUInt16.toNat = w.toUInt16.toNat) : v = w := by
  cases v
  cases w
  exact congrArg Int16.ofUInt16 (UInt16.toNat_inj.mp h)

theorem htons_bits (v : Int16) :
    (htons v).toUInt16.toNat = v.toUInt16.toNat / 256 + 256 * (v.toUInt16.toNat % 256) := by
  have hlt := v.toUInt16.toNat_lt
  unfold htons
  simp only [UInt16.toUInt16_toInt16, UInt16.toNat_ofNat']
  omega

theorem htons_htons (v : Int16) : htons (htons v) = v := by
  have hlt := v.toUInt16.toNat_lt
  apply int16_ext
  rw [htons_bits, htons_bits]
  omega

/-- Converting changes nothing where the bytes are equal. -/
theorem htons_eq_self_iff (v : Int16) : htons v = v ↔ EqualBytes v := by
  have hlt := v.toUInt16.toNat_lt
  unfold EqualBytes
  constructor
  · intro h
    have hbits := htons_bits v
    rw [h] at hbits
    omega
  · intro h
    apply int16_ext
    rw [htons_bits]
    omega

theorem shortOf_shortBytes (v : Int16) :
    shortOf (UInt8.ofNat v.toUInt16.toNat) (UInt8.ofNat (v.toUInt16.toNat / 256)) = v := by
  have hlt := v.toUInt16.toNat_lt
  apply int16_ext
  unfold shortOf
  simp only [UInt16.toUInt16_toInt16, UInt16.toNat_ofNat', UInt8.toNat_ofNat']
  omega

/-- A number is read where it was written. -/
theorem shortAt_written {vs : List Int16} {i : Nat} {v : Int16} (h : vs[i]? = some v) :
    (shortAt ((2 * i : Nat) : Int)).run (vs.flatMap shortBytes) = some v := by
  have hdrop : ∃ rest, (vs.flatMap shortBytes).drop (2 * i) = shortBytes v ++ rest := by
    induction vs generalizing i with
    | nil => cases h
    | cons w vs ih =>
        cases i with
        | zero =>
            cases h
            exact ⟨vs.flatMap shortBytes, rfl⟩
        | succ i => exact ih h
  obtain ⟨rest, hrest⟩ := hdrop
  have hin : 0 + 1 < ((vs.flatMap shortBytes).drop (2 * i)).length := by
    rw [hrest]
    simp [shortBytes]
  have hpos : ((2 * i : Nat) : Int) = (2 * i : Nat) + (0 : Nat) := (Int.add_zero _).symm
  rw [shortAt_run _ (2 * i) 0 hpos hin, hrest]
  exact congrArg some (shortOf_shortBytes v)

/-! ## Encoding an object again -/

section Encoder

variable {S : Type} (encode : S → List Byte × S)

/-- The object behind `k` encodings. -/
def after (object : S) (k : Nat) : S := (fun s => (encode s).2)^[k] object

/-- What the next encoding behind `k` of them writes. -/
def encoded (object : S) (k : Nat) : List Byte := (encode (after encode object k)).1

/-- The object is what it was behind an encoding, and every further one writes the same bytes. -/
def Repeatable (object : S) : Prop :=
  (encode object).2 = object ∧ ∀ k, encoded encode object k = encoded encode object 0

variable {encode}

theorem repeatable_iff (object : S) : Repeatable encode object ↔ (encode object).2 = object := by
  constructor
  · intro h
    exact h.1
  · intro h
    refine ⟨h, fun k => ?_⟩
    rw [encoded, after, Function.iterate_fixed h]
    rfl

/-- Where the second encoding converts back, the encodings alternate. -/
theorem encoded_add_two (htwice : ∀ s, (encode (encode s).2).2 = s) (object : S) (k : Nat) :
    encoded encode object (k + 2) = encoded encode object k := by
  have hafter : after encode object (k + 2) = after encode object k := by
    rw [after, after, Function.iterate_succ_apply', Function.iterate_succ_apply']
    exact htwice _
  rw [encoded, encoded, hafter]

end Encoder

/-! ## The header -/

namespace Header

/-- The fields, in the order they are written in. -/
def fields (header : Header) : List Int16 :=
  [header.id, header.flags, header.qdcount, header.ancount, header.nscount, header.arcount]

/-- The encoder writes the converted fields. -/
theorem bytes_eq (header : Header) :
    header.getHeaderStr.1 = (header.fields.map htons).flatMap shortBytes := rfl

/-- **What the encoder writes is decoded to the fields there were.** -/
theorem decode_encode (header : Header) :
    (getHeaderFromChar 0).run header.getHeaderStr.1 = some header := by
  have hread : ∀ (i : Nat) (v : Int16), header.fields[i]? = some v →
      (shortAt ((2 * i : Nat) : Int)).run header.getHeaderStr.1 = some (htons v) := by
    intro i v hv
    rw [bytes_eq]
    apply shortAt_written
    rw [List.getElem?_map, hv]
    rfl
  have hid : (shortAt 0).run header.getHeaderStr.1 = _ := hread 0 header.id rfl
  have hflags : (shortAt (0 + 2)).run header.getHeaderStr.1 = _ := hread 1 header.flags rfl
  have hqdcount : (shortAt (0 + 4)).run header.getHeaderStr.1 = _ := hread 2 header.qdcount rfl
  have hancount : (shortAt (0 + 6)).run header.getHeaderStr.1 = _ := hread 3 header.ancount rfl
  have hnscount : (shortAt (0 + 8)).run header.getHeaderStr.1 = _ := hread 4 header.nscount rfl
  have harcount : (shortAt (0 + 10)).run header.getHeaderStr.1 = _ := hread 5 header.arcount rfl
  simp only [getHeaderFromChar, Reads.run_bind, hid, hflags, hqdcount, hancount, hnscount,
    harcount, Option.bind_some, Reads.run_pure, ntohs, htons_htons]

/-- The second encoding converts the fields back. -/
theorem encode_twice (header : Header) : header.getHeaderStr.2.getHeaderStr.2 = header := by
  cases header
  simp only [getHeaderStr, htons_htons]

/-- The object survives its encoding where converting its fields changes nothing. -/
theorem encode_same_iff (header : Header) :
    header.getHeaderStr.2 = header ↔ ∀ v ∈ header.fields, EqualBytes v := by
  cases header
  simp [getHeaderStr, fields, htons_eq_self_iff]

end Header

/-! ## The question -/

namespace Question

theorem encode_twice (question : Question) :
    question.getQuestionStr.2.getQuestionStr.2 = question := by
  cases question
  simp only [getQuestionStr, htons_htons]

theorem encode_same_iff (question : Question) :
    question.getQuestionStr.2 = question ↔
      EqualBytes question.qtype ∧ EqualBytes question.qclass := by
  cases question
  simp [getQuestionStr, htons_eq_self_iff]

end Question

/-- Every second encoding of a header or a question is the same. -/
theorem encodings_alternate (header : Header) (question : Question) (k : Nat) :
    encoded Header.getHeaderStr header (k + 2) = encoded Header.getHeaderStr header k ∧
      encoded Question.getQuestionStr question (k + 2) =
        encoded Question.getQuestionStr question k :=
  ⟨encoded_add_two Header.encode_twice header k, encoded_add_two Question.encode_twice question k⟩

/-- What encoding a header is for: it can be decoded, and encoded again. -/
def Header.EncodedRight (header : Header) : Prop :=
  (getHeaderFromChar 0).run header.getHeaderStr.1 = some header ∧ Repeatable getHeaderStr header

/-- **Encoding again.** A header is decoded to what it was and encoded again as often as one
likes, and a question is encoded again, exactly when the two bytes of each of their numbers are
equal. -/
theorem encoding_iff (header : Header) (question : Question) :
    (header.EncodedRight ↔ ∀ v ∈ header.fields, EqualBytes v) ∧
      (Repeatable Question.getQuestionStr question ↔
        EqualBytes question.qtype ∧ EqualBytes question.qclass) := by
  constructor
  · unfold Header.EncodedRight
    rw [and_iff_right header.decode_encode, repeatable_iff, header.encode_same_iff]
  · rw [repeatable_iff, question.encode_same_iff]

/-- The header of a query with the id 1 has the id 256 behind its first encoding, and the second
one writes that id the other way round. -/
theorem encoding_changes :
    ¬ Header.EncodedRight { id := 1, flags := 0x0100, qdcount := 1 } ∧
      encoded Header.getHeaderStr { id := 1, flags := 0x0100, qdcount := 1 } 0 =
        [0, 1, 1, 0, 0, 1, 0, 0, 0, 0, 0, 0] ∧
      encoded Header.getHeaderStr { id := 1, flags := 0x0100, qdcount := 1 } 1 =
        [1, 0, 0, 1, 1, 0, 0, 0, 0, 0, 0, 0] := by
  refine ⟨?_, by decide, by decide⟩
  rintro ⟨-, hsame, -⟩
  exact absurd hsame (by decide)

end LearnSpace.Dns
