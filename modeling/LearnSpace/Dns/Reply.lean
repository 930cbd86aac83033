import LearnSpace.Dns.Message

/-!
# What the decoder reads of a reply

The decoder never looks at `recvSize`. It takes the count of the header and the lengths of the
records as they come, so what it reads depends on the received bytes alone as long as it stays in
them, and then they must be laid out as it goes through them (`Laid`): for each record the part of
the name it skips, ten bytes, a length that is not negative as a `short`, and four bytes at least
where the data stand.
-/

namespace LearnSpace.Dns

open Keel KvStore

variable {mem : List Byte} {start i o n w : Nat}

/-! ## Numbers in a section -/

/-- A byte of a section, zero behind its end. -/
def byteAt (sec : List Byte) (i : Nat) : Byte := sec.getD i 0

/-- A number of two bytes in network order. -/
def netShort (sec : List Byte) (i : Nat) : Nat :=
  256 * (byteAt sec i).toNat + (byteAt sec (i + 1)).toNat

theorem netShort_lt (sec : List Byte) (i : Nat) : netShort sec i < 65536 := by
  have hhi := (byteAt sec i).toNat_lt
  have hlo := (byteAt sec (i + 1)).toNat_lt
  unfold netShort
  omega

/-- Numbers are cut to the same byte when they agree modulo 256. -/
theorem ofNat_eq_iff {m n : Nat} : UInt8.ofNat m = UInt8.ofNat n ↔ m % 256 = n % 256 := by
  rw [← UInt8.toNat_inj, UInt8.toNat_ofNat', UInt8.toNat_ofNat']

/-- `ntohs` of two bytes is the number they are in network order. -/
theorem ntohs_shortOf (hi lo : Byte) :
    (ntohs (shortOf hi lo)).toUInt16.toNat = 256 * hi.toNat + lo.toNat := by
  have hhi := hi.toNat_lt
  have hlo := lo.toNat_lt
  have hword : (shortOf hi lo).toUInt16.toNat = hi.toNat + 256 * lo.toNat := by
    unfold shortOf
    simp only [UInt16.toUInt16_toInt16, UInt16.toNat_ofNat']
    omega
  have hdiv : (hi.toNat + 256 * lo.toNat) / 256 = lo.toNat := by omega
  have hmod : (hi.toNat + 256 * lo.toNat) % 256 = hi.toNat := by omega
  unfold ntohs htons
  rw [hword, hdiv, hmod]
  simp only [UInt16.toUInt16_toInt16, UInt16.toNat_ofNat']
  omega

/-- A `short` is its bits, less 2^16 when the top one is set. -/
theorem toInt_eq (v : Int16) :
    v.toInt = if v.toUInt16.toNat < 32768 then (v.toUInt16.toNat : Int)
      else v.toUInt16.toNat - 65536 := by
  show v.toUInt16.toBitVec.toInt = _
  rw [BitVec.toInt_eq_toNat_cond]
  have hnat : v.toUInt16.toBitVec.toNat = v.toUInt16.toNat := rfl
  rw [hnat]
  split <;> split <;> omega

/-! ## One record -/

/-- The bytes the decoder skips for a name, whichever record it is at. -/
def nameSkip (sec : List Byte) : Nat := if byteAt sec 0 &&& 0xc0 = 0xc0 then 2 else 0

/-- The answer of the record at an offset, as the decoder takes it. -/
def answerAt (sec : List Byte) (i : Nat) : Answer where
  type := ntohs (shortOf (byteAt sec i) (byteAt sec (i + 1)))
  aclass := ntohs (shortOf (byteAt sec (i + 2)) (byteAt sec (i + 3)))
  ttl := ntohl (intOf (byteAt sec (i + 4)) (byteAt sec (i + 5)) (byteAt sec (i + 6))
    (byteAt sec (i + 7)))
  rdataLen := ntohs (shortOf (byteAt sec (i + 8)) (byteAt sec (i + 9)))
  rdata := dottedQuad (byteAt sec (i + 10)) (byteAt sec (i + 11)) (byteAt sec (i + 12))
    (byteAt sec (i + 13))

theorem cell_section {pos : Int} (hpos : pos = start + i) (h : i < (mem.drop start).length) :
    cell mem pos = some (byteAt (mem.drop start) i) := by
  rw [hpos, Reads.cell_drop, byteAt, List.getD_eq_getElem?_getD, List.getElem?_eq_getElem h]
  rfl

theorem shortAt_run (mem : List Byte) (start i : Nat) {pos : Int}
    (hpos : pos = start + i) (h : i + 1 < (mem.drop start).length) :
    (shortAt pos).run mem =
      some (shortOf (byteAt (mem.drop start) i) (byteAt (mem.drop start) (i + 1))) := by
  have hlo := cell_section hpos (Nat.lt_of_succ_lt h)
  have hhi : cell mem (pos + 1) = some (byteAt (mem.drop start) (i + 1)) :=
    cell_section (by omega) h
  simp [shortAt, hlo, hhi]

/-- The four bytes at a position, as `intAt` and `inet_ntop` read them. -/
theorem quad_run (mem : List Byte) (start i : Nat) {α : Type}
    {f : Byte → Byte → Byte → Byte → α} {pos : Int}
    (hpos : pos = start + i) (h : i + 3 < (mem.drop start).length) :
    (do let b₀ ← Reads.get pos
        let b₁ ← Reads.get (pos + 1)
        let b₂ ← Reads.get (pos + 2)
        let b₃ ← Reads.get (pos + 3)
        return f b₀ b₁ b₂ b₃ : Reads Byte α).run mem =
      some (f (byteAt (mem.drop start) i) (byteAt (mem.drop start) (i + 1))
        (byteAt (mem.drop start) (i + 2)) (byteAt (mem.drop start) (i + 3))) := by
  have h₀ : cell mem pos = some (byteAt (mem.drop start) i) := cell_section hpos (by omega)
  have h₁ : cell mem (pos + 1) = some (byteAt (mem.drop start) (i + 1)) :=
    cell_section (by omega) (by omega)
  have h₂ : cell mem (pos + 2) = some (byteAt (mem.drop start) (i + 2)) :=
    cell_section (by omega) (by omega)
  have h₃ : cell mem (pos + 3) = some (byteAt (mem.drop start) (i + 3)) :=
    cell_section (by omega) h
  simp [h₀, h₁, h₂, h₃]

theorem skipName_run (h : 1 < (mem.drop start).length) :
    (Answer.skipName start o).run mem = some ((o + nameSkip (mem.drop start) : Nat) : Int) := by
  have hzero : (start : Int) = start + (0 : Nat) := by omega
  have hfirst : cell mem start = some (byteAt (mem.drop start) 0) :=
    cell_section hzero (Nat.lt_of_succ_lt h)
  unfold Answer.skipName nameSkip
  rw [Reads.run_bind, Reads.run_get, hfirst, Option.bind_some]
  split
  · rw [Reads.run_bind, shortAt_run mem start 0 hzero h]
    rfl
  · rfl

theorem skipName_inv {offset : Int} (h : (Answer.skipName start o).run mem = some offset) :
    offset = ((o + nameSkip (mem.drop start) : Nat) : Int) := by
  unfold Answer.skipName at h
  rw [Reads.run_bind, Reads.run_get] at h
  obtain ⟨first, hcell, hrest⟩ := Option.bind_eq_some_iff.mp h
  have hsec : 0 < (mem.drop start).length := by
    have hbounds := Reads.cell_eq_some_bounds hcell
    rw [List.length_drop]
    omega
  have hfirst : first = byteAt (mem.drop start) 0 := by
    rw [cell_section (i := 0) (by omega) hsec] at hcell
    exact (Option.some.inj hcell).symm
  unfold nameSkip
  rw [← hfirst]
  by_cases hpointer : first &&& 0xc0 = 0xc0
  · rw [if_pos hpointer, Reads.run_bind] at hrest
    obtain ⟨pointer, -, hdone⟩ := Option.bind_eq_some_iff.mp hrest
    rw [if_pos hpointer]
    exact (Option.some.inj hdone).symm
  · rw [if_neg hpointer] at hrest
    rw [if_neg hpointer]
    exact (Option.some.inj hrest).symm

/-- The iteration at an offset. -/
def roundAt (sec : List Byte) (w o : Nat) : Round where
  start := o
  data := ((o + w + 10 : Nat) : Int)
  next := ((o + w + 10 : Nat) : Int) + (answerAt sec (o + w)).rdataLen.toInt
  answer := answerAt sec (o + w)

/-- An iteration, when the record has its fixed part and four bytes of data. -/
theorem round_run (h : o + nameSkip (mem.drop start) + 13 < (mem.drop start).length) :
    (Answer.round start o).run mem =
      some (roundAt (mem.drop start) (nameSkip (mem.drop start)) o) := by
  unfold Answer.round
  rw [Reads.run_bind, skipName_run (by omega), Option.bind_some]
  generalize nameSkip (mem.drop start) = w at h ⊢
  have htype : (shortAt (start + ((o + w : Nat) : Int))).run mem = _ :=
    shortAt_run mem start (o + w) rfl (by omega)
  have haclass : (shortAt (start + (((o + w : Nat) : Int) + 2))).run mem = _ :=
    shortAt_run mem start (o + w + 2) (by omega) (by omega)
  have httl : (intAt (start + (((o + w : Nat) : Int) + 4))).run mem = _ :=
    quad_run mem start (o + w + 4) (by omega) (by omega)
  have hlen : (shortAt (start + (((o + w : Nat) : Int) + 8))).run mem = _ :=
    shortAt_run mem start (o + w + 8) (by omega) (by omega)
  have hrdata : (inet_ntop (start + (((o + w : Nat) : Int) + 10))).run mem = _ :=
    quad_run mem start (o + w + 10) (by omega) (by omega)
  simp only [Reads.run_bind, htype, haclass, httl, hlen, hrdata, Option.bind_some]
  rfl

/-- And only then. -/
theorem round_inv {r : Round} (h : (Answer.round start o).run mem = some r) :
    o + nameSkip (mem.drop start) + 13 < (mem.drop start).length := by
  unfold Answer.round at h
  rw [Reads.run_bind] at h
  obtain ⟨offset, hskip, h⟩ := Option.bind_eq_some_iff.mp h
  have hoffset := skipName_inv hskip
  rw [Reads.run_bind] at h
  obtain ⟨type, -, h⟩ := Option.bind_eq_some_iff.mp h
  rw [Reads.run_bind] at h
  obtain ⟨aclass, -, h⟩ := Option.bind_eq_some_iff.mp h
  rw [Reads.run_bind] at h
  obtain ⟨ttl, -, h⟩ := Option.bind_eq_some_iff.mp h
  rw [Reads.run_bind] at h
  obtain ⟨rdataLen, -, h⟩ := Option.bind_eq_some_iff.mp h
  rw [Reads.run_bind] at h
  obtain ⟨rdata, hrdata, -⟩ := Option.bind_eq_some_iff.mp h
  -- the last byte of the data is the furthest one read
  have hlast : ∃ b, cell mem (start + (offset + 10) + 3) = some b := by
    unfold inet_ntop at hrdata
    simp only [Reads.run_bind, Reads.run_get] at hrdata
    obtain ⟨b₀, -, hrdata⟩ := Option.bind_eq_some_iff.mp hrdata
    obtain ⟨b₁, -, hrdata⟩ := Option.bind_eq_some_iff.mp hrdata
    obtain ⟨b₂, -, hrdata⟩ := Option.bind_eq_some_iff.mp hrdata
    obtain ⟨b₃, hcell, -⟩ := Option.bind_eq_some_iff.mp hrdata
    exact ⟨b₃, hcell⟩
  obtain ⟨b, hcell⟩ := hlast
  have hbounds := Reads.cell_eq_some_bounds hcell
  rw [List.length_drop]
  omega

/-! ## The loop -/

/-- Whether a section is laid out for `n` iterations that take `w` bytes for each name. -/
def Laid (w : Nat) : Nat → List Byte → Prop
  | 0, _ => True
  | n + 1, sec =>
      w + 13 < sec.length ∧ netShort sec (w + 8) < 32768 ∧
        Laid w n (sec.drop (w + 10 + netShort sec (w + 8)))

instance Laid.decidable (w : Nat) : (n : Nat) → (sec : List Byte) → Decidable (Laid w n sec)
  | 0, _ => inferInstanceAs (Decidable True)
  | n + 1, sec =>
      haveI := Laid.decidable w n (sec.drop (w + 10 + netShort sec (w + 8)))
      inferInstanceAs (Decidable (_ ∧ _ ∧ _))

theorem byteAt_drop (sec : List Byte) (o i : Nat) :
    byteAt (sec.drop o) i = byteAt sec (o + i) := by
  simp [byteAt]

theorem netShort_drop (sec : List Byte) (o i : Nat) :
    netShort (sec.drop o) i = netShort sec (o + i) := by
  simp [netShort, byteAt_drop, Nat.add_assoc]

/-- The section behind some bytes of it. -/
theorem laid_drop (sec : List Byte) (w n o : Nat) :
    Laid w (n + 1) (sec.drop o) ↔
      o + w + 13 < sec.length ∧ netShort sec (o + w + 8) < 32768 ∧
        Laid w n (sec.drop (o + w + 10 + netShort sec (o + w + 8))) := by
  simp only [Laid, netShort_drop, List.drop_drop, List.length_drop, ← Nat.add_assoc]
  have hlen : w + 13 < sec.length - o ↔ o + w + 13 < sec.length := by omega
  rw [hlen]

/-- The length a record states is its number, or negative. -/
theorem rdataLen_toInt (sec : List Byte) (i : Nat) :
    (answerAt sec i).rdataLen.toInt =
      if netShort sec (i + 8) < 32768 then (netShort sec (i + 8) : Int)
      else netShort sec (i + 8) - 65536 := by
  rw [toInt_eq]
  have hbits : (answerAt sec i).rdataLen.toUInt16.toNat = netShort sec (i + 8) :=
    ntohs_shortOf _ _
  rw [hbits]

theorem roundAt_next {sec : List Byte} (h : netShort sec (o + w + 8) < 32768) :
    (roundAt sec w o).next = ((o + w + 10 + netShort sec (o + w + 8) : Nat) : Int) := by
  unfold roundAt
  rw [rdataLen_toInt, if_pos h, ← Nat.cast_add]

theorem roundAt_grows (sec : List Byte) (w o : Nat) :
    (roundAt sec w o).data ≤ (roundAt sec w o).next ↔ netShort sec (o + w + 8) < 32768 := by
  have hlt := netShort_lt sec (o + w + 8)
  simp only [roundAt, rdataLen_toInt]
  split <;> omega

/-- An iteration of the loop, with what is left of it. -/
theorem rounds_run (h : o + nameSkip (mem.drop start) + 13 < (mem.drop start).length) :
    (Answer.rounds start (n + 1) o).run mem =
      ((Answer.rounds start n
          (roundAt (mem.drop start) (nameSkip (mem.drop start)) o).next).run mem).bind fun tail =>
        some (roundAt (mem.drop start) (nameSkip (mem.drop start)) o :: tail) := by
  rw [Answer.rounds, Reads.run_bind, round_run h, Option.bind_some, Reads.run_bind]
  rfl

theorem rounds_inv {rs : List Round} (h : (Answer.rounds start (n + 1) o).run mem = some rs) :
    o + nameSkip (mem.drop start) + 13 < (mem.drop start).length ∧
      ∃ tail, rs = roundAt (mem.drop start) (nameSkip (mem.drop start)) o :: tail ∧
        (Answer.rounds start n
          (roundAt (mem.drop start) (nameSkip (mem.drop start)) o).next).run mem = some tail := by
  have hfit : o + nameSkip (mem.drop start) + 13 < (mem.drop start).length := by
    rw [Answer.rounds, Reads.run_bind] at h
    obtain ⟨r, hr, -⟩ := Option.bind_eq_some_iff.mp h
    exact round_inv hr
  rw [rounds_run hfit] at h
  obtain ⟨tail, htail, hcons⟩ := Option.bind_eq_some_iff.mp h
  exact ⟨hfit, tail, (Option.some.inj hcons).symm, htail⟩

/-- The loop reaches its end on a memory, with no length negative, when the section there is
laid out for it. -/
theorem rounds_iff (mem : List Byte) (start n o : Nat) :
    (∃ rs, (Answer.rounds start n o).run mem = some rs ∧ ∀ r ∈ rs, r.data ≤ r.next) ↔
      Laid (nameSkip (mem.drop start)) n ((mem.drop start).drop o) := by
  induction n generalizing o with
  | zero => simp [Answer.rounds, Laid]
  | succ n ih =>
      rw [laid_drop]
      constructor
      · intro hrun
        obtain ⟨rs, hrs, hgrow⟩ := hrun
        obtain ⟨hfit, tail, heq, htail⟩ := rounds_inv hrs
        rw [heq] at hgrow
        have hsmall := (roundAt_grows _ _ _).mp (hgrow _ List.mem_cons_self)
        rw [roundAt_next hsmall] at htail
        refine ⟨hfit, hsmall, (ih _).mp ⟨tail, htail, ?_⟩⟩
        intro r hr
        exact hgrow r (List.mem_cons_of_mem _ hr)
      · intro hlaid
        obtain ⟨hfit, hsmall, hlaid⟩ := hlaid
        obtain ⟨tail, htail, hgrow⟩ := (ih _).mpr hlaid
        refine ⟨roundAt (mem.drop start) (nameSkip (mem.drop start)) o :: tail, ?_, ?_⟩
        · rw [rounds_run hfit, roundAt_next hsmall, htail]
          rfl
        · intro r hr
          cases List.mem_cons.mp hr with
          | inl heq =>
              rw [heq]
              exact (roundAt_grows _ _ _).mpr hsmall
          | inr hmem => exact hgrow r hmem

/-! ## The running offset -/

/-- The values `offset` takes in an iteration, up to the steps inside the fixed part. -/
def Round.offsets (r : Round) : List Int := [r.start, r.data, r.next]

theorem round_start {ch offset : Int} {r : Round}
    (h : (Answer.round ch offset).run mem = some r) : r.start = offset ∧ offset ≤ r.data := by
  unfold Answer.round Answer.skipName at h
  simp only [Reads.run_bind, Reads.run_get] at h
  obtain ⟨behind, hskip, h⟩ := Option.bind_eq_some_iff.mp h
  have hbehind : offset ≤ behind := by
    obtain ⟨first, -, hskip⟩ := Option.bind_eq_some_iff.mp hskip
    split at hskip
    · rw [Reads.run_bind] at hskip
      obtain ⟨pointer, -, hdone⟩ := Option.bind_eq_some_iff.mp hskip
      have heq : offset + 2 = behind := Option.some.inj hdone
      omega
    · have heq : offset = behind := Option.some.inj hskip
      omega
  obtain ⟨type, -, h⟩ := Option.bind_eq_some_iff.mp h
  obtain ⟨aclass, -, h⟩ := Option.bind_eq_some_iff.mp h
  obtain ⟨ttl, -, h⟩ := Option.bind_eq_some_iff.mp h
  obtain ⟨rdataLen, -, h⟩ := Option.bind_eq_some_iff.mp h
  obtain ⟨rdata, -, h⟩ := Option.bind_eq_some_iff.mp h
  cases h
  refine ⟨rfl, ?_⟩
  dsimp only
  omega

/-- The offset never decreases when no length is negative. -/
theorem offsets_chain_iff {ch offset : Int} {rs : List Round}
    (h : (Answer.rounds ch n offset).run mem = some rs) :
    (offset :: rs.flatMap Round.offsets).IsChain (· ≤ ·) ↔ ∀ r ∈ rs, r.data ≤ r.next := by
  induction n generalizing offset rs with
  | zero =>
      cases h
      simp
  | succ n ih =>
      rw [Answer.rounds, Reads.run_bind] at h
      obtain ⟨r, hr, h⟩ := Option.bind_eq_some_iff.mp h
      rw [Reads.run_bind] at h
      obtain ⟨tail, htail, h⟩ := Option.bind_eq_some_iff.mp h
      cases h
      have hstart := round_start hr
      simp only [List.flatMap_cons, Round.offsets, List.cons_append, List.nil_append,
        List.isChain_cons_cons, ih htail, List.mem_cons, forall_eq_or_imp, hstart.1,
        hstart.2, le_refl, true_and]

/-! ## The whole reply -/

theorem length_reMsg (d : Datagram) : d.reMsg.length = 10240 := by
  have hfits := d.fits
  unfold Datagram.reMsg
  rw [List.length_append, List.length_replicate]
  omega

/-- The header is read inside `reMsg`, whatever was received. -/
theorem header_isSome (d : Datagram) :
    ((Header.getHeaderFromChar 0).run d.reMsg).isSome := by
  have hsec : (d.reMsg.drop 0).length = 10240 := length_reMsg d
  have hread : ∀ i : Nat, i < 12 → ∃ v, (shortAt i).run d.reMsg = some v := by
    intro i hi
    exact ⟨_, shortAt_run d.reMsg 0 i (by omega) (by omega)⟩
  obtain ⟨id, hid⟩ := hread 0 (by omega)
  obtain ⟨flags, hflags⟩ := hread 2 (by omega)
  obtain ⟨qdcount, hqdcount⟩ := hread 4 (by omega)
  obtain ⟨ancount, hancount⟩ := hread 6 (by omega)
  obtain ⟨nscount, hnscount⟩ := hread 8 (by omega)
  obtain ⟨arcount, harcount⟩ := hread 10 (by omega)
  simp only [Nat.cast_zero, Nat.cast_ofNat] at hid hflags hqdcount hancount hnscount harcount
  simp [Header.getHeaderFromChar, hid, hflags, hqdcount, hancount, hnscount, harcount]

/-- The header `query` takes from a datagram. -/
def Datagram.header (d : Datagram) : Header :=
  ((Header.getHeaderFromChar 0).run d.reMsg).get (header_isSome d)

/-- What was received behind the length of what was sent. -/
def Datagram.answers (d : Datagram) (msgSize : Nat) : List Byte := d.bytes.drop msgSize

/-- The decoder stays in its buffer and in what was received. -/
structure Contained (id : Int16) (msgSize : Nat) (d : Datagram) : Prop where
  inside : ∀ i ∈ (decodeReply id msgSize).positions d.reMsg, 0 ≤ i ∧ i < 10240
  grows : ¬ d.header.Foreign id → ∀ rs,
    (Answer.rounds msgSize d.header.ancount.toInt.toNat 0).run d.reMsg = some rs →
      (rs.flatMap Round.offsets).IsChain (· ≤ ·)
  received : ¬ d.header.Foreign id →
    ∀ i ∈ (Answer.getAnswerFromChar msgSize d.header.ancount.toInt).positions d.reMsg,
      i < d.recvSize

theorem header_run (d : Datagram) :
    (Header.getHeaderFromChar 0).run d.reMsg = some d.header :=
  (Option.some_get (header_isSome d)).symm

/-- The answers are read where the loop goes. -/
theorem positions_getAnswerFromChar (mem : List Byte) (ch count : Int) :
    (Answer.getAnswerFromChar ch count).positions mem =
      (Answer.rounds ch count.toNat 0).positions mem := by
  unfold Answer.getAnswerFromChar
  rw [Reads.positions_bind]
  cases (Answer.rounds ch count.toNat 0).run mem <;> simp

/-- The reply is read where its header is, and where its answers are if it is not foreign. -/
theorem positions_decodeReply (id : Int16) (msgSize : Nat) (d : Datagram) :
    (decodeReply id msgSize).positions d.reMsg =
      (Header.getHeaderFromChar 0).positions d.reMsg ++
        if d.header.Foreign id then []
        else (Answer.rounds msgSize d.header.ancount.toInt.toNat 0).positions d.reMsg := by
  unfold decodeReply
  rw [Reads.positions_bind, header_run, Option.elim_some]
  split
  · rfl
  · rw [positions_getAnswerFromChar]

theorem header_inside (d : Datagram) :
    ∀ i ∈ (Header.getHeaderFromChar 0).positions d.reMsg, 0 ≤ i ∧ i < 10240 := by
  have h := (Reads.run_isSome_iff _).mp (header_isSome d)
  rw [length_reMsg] at h
  exact h

/-- The first offset is zero, so nothing is below it. -/
theorem chain_of_cons {rs : List Round} {ch : Int}
    (h : (Answer.rounds ch n 0).run mem = some rs)
    (hchain : (rs.flatMap Round.offsets).IsChain (· ≤ ·)) :
    ((0 : Int) :: rs.flatMap Round.offsets).IsChain (· ≤ ·) := by
  cases n with
  | zero =>
      cases h
      exact .singleton 0
  | succ n =>
      rw [Answer.rounds, Reads.run_bind] at h
      obtain ⟨r, hr, h⟩ := Option.bind_eq_some_iff.mp h
      rw [Reads.run_bind] at h
      obtain ⟨tail, htail, h⟩ := Option.bind_eq_some_iff.mp h
      cases h
      have hzero : (0 : Int) ≤ r.start := by
        rw [(round_start hr).1]
      exact .cons_cons hzero hchain

/-- The condition for an accepted reply. -/
theorem contained_iff_laid {id : Int16} {msgSize : Nat} {d : Datagram}
    (hid : ¬ d.header.Foreign id) :
    Contained id msgSize d ↔
      Laid (nameSkip (d.answers msgSize)) d.header.ancount.toInt.toNat (d.answers msgSize) := by
  have hlaid := rounds_iff d.bytes msgSize d.header.ancount.toInt.toNat 0
  rw [List.drop_zero] at hlaid
  show _ ↔ Laid (nameSkip (d.bytes.drop msgSize)) _ (d.bytes.drop msgSize)
  rw [← hlaid]
  constructor
  · intro h
    have hinside := h.inside
    rw [positions_decodeReply, if_neg hid, List.forall_mem_append] at hinside
    have hreceived := h.received hid
    rw [positions_getAnswerFromChar] at hreceived
    have hrun : ((Answer.rounds msgSize d.header.ancount.toInt.toNat 0).run d.reMsg).isSome := by
      rw [Reads.run_isSome_iff, length_reMsg]
      exact hinside.2
    obtain ⟨rs, hrs⟩ := Option.isSome_iff_exists.mp hrun
    have hfront := (Reads.run_front_iff _ rs).mpr ⟨hrs, hreceived⟩
    exact ⟨rs, hfront, (offsets_chain_iff hrs).mp (chain_of_cons hrs (h.grows hid rs hrs))⟩
  · intro h
    obtain ⟨rs, hrs, hgrow⟩ := h
    have hwhole : (Answer.rounds msgSize d.header.ancount.toInt.toNat 0).run d.reMsg = some rs ∧
        ∀ i ∈ (Answer.rounds msgSize d.header.ancount.toInt.toNat 0).positions d.reMsg,
          i < d.bytes.length := (Reads.run_front_iff _ rs).mp hrs
    have hinside := (Reads.run_isSome_iff _).mp (Option.isSome_iff_exists.mpr ⟨rs, hwhole.1⟩)
    rw [length_reMsg] at hinside
    refine ⟨?_, ?_, ?_⟩
    · rw [positions_decodeReply, if_neg hid, List.forall_mem_append]
      exact ⟨header_inside d, hinside⟩
    · intro _ rs' hrs'
      have hchain := (offsets_chain_iff hrs').mpr
      rw [hwhole.1] at hrs'
      cases hrs'
      exact (hchain hgrow).tail
    · rw [positions_getAnswerFromChar]
      intro _
      exact hwhole.2

/-- **A reply is read inside `reMsg`, forwards, and no further than it was received, exactly when
it is refused or its answer section is laid out for as many iterations as it counts.** -/
theorem contained_iff (domainName : List Byte) (id : Int16) (d : Datagram) :
    Contained id (msg domainName id).length d ↔
      d.header.Foreign id ∨
        Laid (nameSkip (d.answers (msg domainName id).length)) d.header.ancount.toInt.toNat
          (d.answers (msg domainName id).length) := by
  by_cases hid : d.header.Foreign id
  · refine iff_of_true ⟨?_, ?_, ?_⟩ (Or.inl hid)
    · rw [positions_decodeReply, if_pos hid, List.append_nil]
      exact header_inside d
    · intro hnot
      exact absurd hid hnot
    · intro hnot
      exact absurd hid hnot
  · rw [contained_iff_laid hid, or_iff_right hid]

/-- A record whose length is 2^15 sends the next one far in front of the buffer. -/
theorem contained_breaks :
    ¬ Contained 5 (msg [97] 5).length
      ⟨[0, 5, 0x81, 0x80, 0, 1, 0, 2, 0, 0, 0, 0, 1, 97, 0, 0, 1, 0, 1,
        0xc0, 12, 0, 1, 0, 1, 0, 0, 0, 60, 0x80, 0, 1, 2, 3, 4], by decide⟩ := by
  intro h
  have hbefore := h.inside (-32735) (by decide +kernel)
  omega

end LearnSpace.Dns
