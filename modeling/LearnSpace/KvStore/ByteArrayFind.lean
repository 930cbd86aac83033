import Mathlib.Algebra.Group.Int.Defs
import LearnSpace.KvStore.Bytes

/-!
# Searching a byte array

`find`, with the position the source has for its comparisons: an `int`, which takes the
position of the loop modulo 2^32 and must not be counted up past its largest value. The
loop tries every position inside the content, so at the last ones the comparison is about
to leave it, and only a byte that differs stops it there. What lies behind the content is
the rest of the buffer, whatever it holds.

`none` is a read outside the buffer, or an overflow of the position.
-/

namespace LearnSpace.KvStore

open Keel

/-- A buffer and how much of it is content. -/
structure Block where
  buffer : List Byte
  size : Nat
  inside : size ≤ buffer.length

/-- `int pos = i`. -/
def toInt (i : Nat) : Int := (i : Int).bmod (2 ^ 32)

/-- The comparison of `value` with the bytes from `pos` on: whether they are the same, and
the positions that were read for it. -/
def compareAt (buffer : List Byte) : List Byte → Int → Option (Bool × List Int)
  | [], _ => some (true, [])
  | c :: value, pos => do
    if pos < 0 then
      none
    let b ← buffer[pos.toNat]?
    if b ≠ c then
      return (false, [pos])
    if pos = 2 ^ 31 - 1 then
      none
    let (isSame, reads) ← compareAt buffer value (pos + 1)
    return (isSame, pos :: reads)

/-- The loop of `find` over `n` positions from `i` on. -/
def findFrom (buffer value : List Byte) : Nat → Nat → Option (Option Nat × List Int)
  | 0, _ => some (none, [])
  | n + 1, i => do
    let (isSame, reads) ← compareAt buffer value (toInt i)
    if isSame then
      return (some i, reads)
    let (found, more) ← findFrom buffer value n (i + 1)
    return (found, reads ++ more)

namespace Block

/-- The bytes of the array. -/
def content (a : Block) : List Byte := a.buffer.take a.size

theorem length_content (a : Block) : a.content.length = a.size :=
  List.length_take_of_le a.inside

/-- `find`, and the positions of the array it has read. -/
def find (a : Block) (value : List Byte) (startPos : Nat) : Option (Option Nat × List Int) :=
  findFrom a.buffer value (a.size - startPos) startPos

end Block

/-- The array as its methods see it. -/
def Bytes.block (B : Bytes) : Block where
  buffer := B.memory
  size := B.size
  inside := B.length_memory.symm ▸ B.fits

/-! ## What is to be found -/

/-- The value stands at `i`, a position of the content. -/
def Occurs (content value : List Byte) (i : Nat) : Prop :=
  i < content.length ∧ value <+: content.drop i

/-- The first position from `startPos` on at which the value stands, if there is one. -/
def Finds (content value : List Byte) (startPos : Nat) : Option Nat → Prop
  | some i => startPos ≤ i ∧ Occurs content value i ∧
      ∀ k, startPos ≤ k → k < i → ¬ Occurs content value k
  | none => ∀ k, startPos ≤ k → ¬ Occurs content value k

/-! ## Comparisons -/

/-- The value stands at `pos` in a memory, and its end can be counted in an `int`. -/
def StandsAt (mem value : List Byte) (pos : Int) : Prop :=
  ∀ j : Nat, j < value.length → 0 ≤ pos + j ∧ pos + j + 1 < 2 ^ 31 ∧
    mem[(pos + j).toNat]? = value[j]?

/-- Somewhere in the memory, at a position that is an `int`, the value differs from what
stands from `pos` on. -/
def DiffersAt (mem value : List Byte) (pos : Int) : Prop :=
  0 ≤ pos ∧ ∃ j : Nat, j < value.length ∧ pos + j < 2 ^ 31 ∧
    ∃ b, mem[(pos + j).toNat]? = some b ∧ value[j]? ≠ some b

section Compare

variable {mem value : List Byte} {c : Byte} {pos : Int}

theorem standsAt_nil : StandsAt mem [] pos := fun _ hj => absurd hj (Nat.not_lt_zero _)

theorem standsAt_cons : StandsAt mem (c :: value) pos ↔
    0 ≤ pos ∧ pos + 1 < 2 ^ 31 ∧ mem[pos.toNat]? = some c ∧ StandsAt mem value (pos + 1) := by
  constructor
  · intro h
    have hfirst := h 0 (Nat.zero_lt_succ _)
    rw [Int.natCast_zero, Int.add_zero, List.getElem?_cons_zero] at hfirst
    refine ⟨hfirst.1, hfirst.2.1, hfirst.2.2, fun j hj => ?_⟩
    have hrest := h (j + 1) (Nat.succ_lt_succ hj)
    rw [List.getElem?_cons_succ, Int.natCast_succ, ← Int.add_assoc, Int.add_right_comm] at hrest
    exact hrest
  · rintro ⟨hlow, hhigh, hfirst, hrest⟩ j hj
    cases j with
    | zero =>
        rw [Int.natCast_zero, Int.add_zero, List.getElem?_cons_zero]
        exact ⟨hlow, hhigh, hfirst⟩
    | succ j =>
        have hnext := hrest j (Nat.lt_of_succ_lt_succ hj)
        rw [List.getElem?_cons_succ, Int.natCast_succ, ← Int.add_assoc, Int.add_right_comm]
        exact hnext

theorem not_differsAt_nil : ¬ DiffersAt mem [] pos := by
  rintro ⟨-, j, hj, -⟩
  cases hj

theorem differsAt_cons : DiffersAt mem (c :: value) pos ↔
    0 ≤ pos ∧ pos < 2 ^ 31 ∧ ∃ b, mem[pos.toNat]? = some b ∧
      (b ≠ c ∨ DiffersAt mem value (pos + 1)) := by
  constructor
  · rintro ⟨hlow, j, hj, hhigh, b, hb, hne⟩
    have hin := (List.getElem?_eq_some_iff.mp hb).1
    have hfirst := List.getElem?_eq_getElem (show pos.toNat < mem.length by omega)
    refine ⟨hlow, by omega, _, hfirst, ?_⟩
    cases j with
    | zero =>
        rw [Int.natCast_zero, Int.add_zero, hfirst, Option.some_inj] at hb
        rw [List.getElem?_cons_zero, ← hb, Ne, Option.some_inj] at hne
        exact .inl (Ne.symm hne)
    | succ j =>
        rw [List.getElem?_cons_succ] at hne
        rw [Int.natCast_succ, ← Int.add_assoc, Int.add_right_comm] at hb
        refine .inr ⟨by omega, j, Nat.lt_of_succ_lt_succ hj, by omega, b, hb, hne⟩
  · rintro ⟨hlow, hhigh, b, hb, hne | ⟨-, j, hj, hbound, d, hd, hne⟩⟩
    · refine ⟨hlow, 0, Nat.zero_lt_succ _, by omega, b, ?_, ?_⟩
      · rwa [Int.natCast_zero, Int.add_zero]
      · rw [List.getElem?_cons_zero, Ne, Option.some_inj]
        exact Ne.symm hne
    · refine ⟨hlow, j + 1, Nat.succ_lt_succ hj, by omega, d, ?_, ?_⟩
      · rwa [Int.natCast_succ, ← Int.add_assoc, Int.add_right_comm]
      · rwa [List.getElem?_cons_succ]

/-- What a comparison that comes to an end has done with its first letter. -/
theorem compareAt_cons {r : Bool} {reads : List Int} :
    compareAt mem (c :: value) pos = some (r, reads) ↔
      0 ≤ pos ∧ ∃ b, mem[pos.toNat]? = some b ∧
        (b ≠ c ∧ r = false ∧ reads = [pos] ∨
          b = c ∧ pos ≠ 2 ^ 31 - 1 ∧ ∃ rest,
            compareAt mem value (pos + 1) = some (r, rest) ∧ reads = pos :: rest) := by
  by_cases hlow : pos < 0
  · simp only [compareAt, hlow, if_true]
    constructor
    · nofun
    · rintro ⟨hpos, -⟩
      omega
  · cases hb : mem[pos.toNat]? with
    | none =>
        simp only [compareAt, hlow, hb, if_false, Option.bind_eq_bind, Option.bind_none]
        constructor
        · nofun
        · rintro ⟨-, b, hb, -⟩
          cases hb
    | some b =>
        have hstep : compareAt mem (c :: value) pos =
            if b ≠ c then some (false, [pos])
            else if pos = 2 ^ 31 - 1 then none
            else (compareAt mem value (pos + 1)).bind fun s => some (s.1, pos :: s.2) := by
          simp only [compareAt, hlow, hb, if_false, Option.bind_eq_bind, Option.bind_some,
            Option.bind_none, Option.pure_def]
        rw [hstep]
        constructor
        · intro h
          refine ⟨Int.not_lt.mp hlow, b, rfl, ?_⟩
          split at h
          · rename_i hne
            cases h
            exact .inl ⟨hne, rfl, rfl⟩
          · rename_i heq
            split at h
            · cases h
            · rename_i hover
              obtain ⟨⟨r', rest⟩, hrest, h⟩ := Option.bind_eq_some_iff.mp h
              cases h
              exact .inr ⟨not_not.mp heq, hover, rest, hrest, rfl⟩
        · rintro ⟨-, d, ⟨⟩, ⟨hne, rfl, rfl⟩ | ⟨heq, hover, rest, hrest, rfl⟩⟩
          · rw [if_pos hne]
          · rw [if_neg (not_not_intro heq), if_neg hover, hrest]
            rfl

/-- A comparison that finds no difference. -/
theorem compareAt_true : ∀ {pos : Int}, pos < 2 ^ 31 →
    ((∃ reads, compareAt mem value pos = some (true, reads)) ↔ StandsAt mem value pos) := by
  induction value with
  | nil => exact fun _ => ⟨fun _ => standsAt_nil, fun _ => ⟨[], rfl⟩⟩
  | cons c value ih =>
      intro pos hpos
      rw [standsAt_cons]
      constructor
      · rintro ⟨reads, h⟩
        obtain ⟨hlow, b, hb, ⟨-, hr, -⟩ | ⟨rfl, hover, rest, hrest, -⟩⟩ := compareAt_cons.mp h
        · cases hr
        · exact ⟨hlow, by omega, hb, (ih (by omega)).mp ⟨rest, hrest⟩⟩
      · rintro ⟨hlow, hnext, hb, hstands⟩
        obtain ⟨rest, hrest⟩ := (ih hnext).mpr hstands
        exact ⟨_, compareAt_cons.mpr ⟨hlow, c, hb, .inr ⟨rfl, by omega, rest, hrest, rfl⟩⟩⟩

/-- A comparison that finds a difference. -/
theorem compareAt_false : ∀ {pos : Int}, pos < 2 ^ 31 →
    ((∃ reads, compareAt mem value pos = some (false, reads)) ↔ DiffersAt mem value pos) := by
  induction value with
  | nil =>
      refine fun _ => ⟨?_, fun h => absurd h not_differsAt_nil⟩
      rintro ⟨reads, h⟩
      cases h
  | cons c value ih =>
      intro pos hpos
      rw [differsAt_cons]
      constructor
      · rintro ⟨reads, h⟩
        obtain ⟨hlow, b, hb, ⟨hne, -⟩ | ⟨-, hover, rest, hrest, -⟩⟩ := compareAt_cons.mp h
        · exact ⟨hlow, hpos, b, hb, .inl hne⟩
        · exact ⟨hlow, hpos, b, hb, .inr ((ih (by omega)).mp ⟨rest, hrest⟩)⟩
      · rintro ⟨hlow, -, b, hb, hdiffers⟩
        by_cases hne : b = c
        · have hrest := hdiffers.resolve_left (not_not_intro hne)
          have hnext : pos + 1 < 2 ^ 31 := by
            obtain ⟨-, j, -, hbound, -⟩ := hrest
            omega
          obtain ⟨rest, hrest⟩ := (ih hnext).mpr hrest
          exact ⟨_, compareAt_cons.mpr ⟨hlow, b, hb, .inr ⟨hne, by omega, rest, hrest, rfl⟩⟩⟩
        · exact ⟨_, compareAt_cons.mpr ⟨hlow, b, hb, .inl ⟨hne, rfl, rfl⟩⟩⟩

/-- Reads stay in the first `n` bytes if the comparison can do with these. -/
theorem compareAt_take {n : Nat} {r : Bool} : ∀ {pos : Int} {reads : List Int},
    compareAt (mem.take n) value pos = some (r, reads) ↔
      compareAt mem value pos = some (r, reads) ∧ ∀ p ∈ reads, 0 ≤ p ∧ p < n := by
  induction value with
  | nil =>
      intro pos reads
      constructor
      · rintro ⟨⟩
        exact ⟨rfl, nofun⟩
      · exact And.left
  | cons c value ih =>
      intro pos reads
      rw [compareAt_cons, compareAt_cons]
      constructor
      · rintro ⟨hlow, b, hb, h⟩
        rw [List.getElem?_take] at hb
        split at hb
        · rename_i hin
          rcases h with ⟨hne, hr, rfl⟩ | ⟨hbc, hover, rest, hrest, rfl⟩
          · refine ⟨⟨hlow, b, hb, .inl ⟨hne, hr, rfl⟩⟩, fun p hp => ?_⟩
            obtain rfl := List.mem_singleton.mp hp
            omega
          · obtain ⟨hwhole, hreads⟩ := ih.mp hrest
            refine ⟨⟨hlow, b, hb, .inr ⟨hbc, hover, rest, hwhole, rfl⟩⟩, fun p hp => ?_⟩
            rcases List.mem_cons.mp hp with rfl | hp
            · omega
            · exact hreads p hp
        · cases hb
      · rintro ⟨⟨hlow, b, hb, h⟩, hreads⟩
        have hin : (mem.take n)[pos.toNat]? = some b := by
          have hpos : pos ∈ reads := by
            rcases h with ⟨-, -, rfl⟩ | ⟨-, -, rest, -, rfl⟩
            · exact List.mem_cons_self
            · exact List.mem_cons_self
          have hbound := hreads pos hpos
          rw [List.getElem?_take_of_lt (by omega), hb]
        refine ⟨hlow, b, hin, h.imp_right ?_⟩
        rintro ⟨hbc, hover, rest, hrest, rfl⟩
        exact ⟨hbc, hover, rest, ih.mpr ⟨hrest, fun p hp => hreads p (.tail _ hp)⟩, rfl⟩

end Compare

/-! ## The loop -/

section Loop

variable {mem value : List Byte} {n i k : Nat}

theorem toInt_lt (i : Nat) : toInt i < 2 ^ 31 := by
  have hpos : 0 < 2 ^ 32 := Nat.two_pow_pos 32
  have h := Int.bmod_lt (x := (i : Int)) hpos
  unfold toInt
  omega

theorem toInt_eq (hi : i < 2 ^ 31) : toInt i = i := by
  have hlow : -(((2 ^ 32 : Nat) : Int) / 2) ≤ i := by omega
  have hhigh : (i : Int) < (((2 ^ 32 : Nat) : Int) + 1) / 2 := by omega
  exact Int.bmod_eq_of_le hlow hhigh

/-- What an iteration of `find` does. -/
theorem findFrom_succ {found : Option Nat} {reads : List Int} :
    findFrom mem value (n + 1) i = some (found, reads) ↔
      (compareAt mem value (toInt i) = some (true, reads) ∧ found = some i) ∨
        ∃ here more, compareAt mem value (toInt i) = some (false, here) ∧
          findFrom mem value n (i + 1) = some (found, more) ∧ reads = here ++ more := by
  rw [findFrom]
  cases hcompare : compareAt mem value (toInt i) with
  | none =>
      constructor
      · nofun
      · rintro (⟨h, -⟩ | ⟨here, more, h, -⟩) <;> cases h
  | some s =>
      obtain ⟨isSame, here⟩ := s
      cases isSame with
      | true =>
          constructor
          · intro h
            cases h
            exact .inl ⟨rfl, rfl⟩
          · rintro (⟨h, rfl⟩ | ⟨here', more, h, -⟩)
            · cases h
              rfl
            · cases h
      | false =>
          have hrest : (do
              let (isSame, reads) ← some (false, here)
              if isSame then
                return (some i, reads)
              let (found, more) ← findFrom mem value n (i + 1)
              return (found, reads ++ more)) =
              (findFrom mem value n (i + 1)).bind fun s => some (s.1, here ++ s.2) := rfl
          rw [hrest]
          constructor
          · intro h
            obtain ⟨⟨found', more⟩, hloop, h⟩ := Option.bind_eq_some_iff.mp h
            cases h
            exact .inr ⟨here, more, rfl, hloop, rfl⟩
          · rintro (⟨h, -⟩ | ⟨here', more, h, hloop, rfl⟩)
            · cases h
            · cases h
              rw [hloop]
              rfl

/-- The loop finds the first position at which the comparison finds no difference. -/
theorem findFrom_some : ∀ {n i : Nat},
    (∃ reads, findFrom mem value n i = some (some k, reads)) ↔
      i ≤ k ∧ k < i + n ∧ (∀ m, i ≤ m → m < k → DiffersAt mem value (toInt m)) ∧
        StandsAt mem value (toInt k) := by
  intro n
  induction n with
  | zero =>
      intro i
      constructor
      · rintro ⟨reads, h⟩
        cases h
      · omega
  | succ n ih =>
      intro i
      constructor
      · rintro ⟨reads, h⟩
        rcases findFrom_succ.mp h with ⟨hcompare, hk⟩ | ⟨here, more, hcompare, hrest, -⟩
        · cases hk
          refine ⟨Nat.le_refl _, by omega, fun m hlow hhigh => by omega, ?_⟩
          exact (compareAt_true (toInt_lt _)).mp ⟨_, hcompare⟩
        · obtain ⟨hlow, hhigh, hdiffers, hstands⟩ := ih.mp ⟨more, hrest⟩
          refine ⟨by omega, by omega, fun m hm hmk => ?_, hstands⟩
          rcases Nat.eq_or_lt_of_le hm with rfl | hm
          · exact (compareAt_false (toInt_lt i)).mp ⟨_, hcompare⟩
          · exact hdiffers m hm hmk
      · rintro ⟨hlow, hhigh, hdiffers, hstands⟩
        rcases Nat.eq_or_lt_of_le hlow with rfl | hlow
        · obtain ⟨reads, hcompare⟩ := (compareAt_true (toInt_lt i)).mpr hstands
          exact ⟨reads, findFrom_succ.mpr (.inl ⟨hcompare, rfl⟩)⟩
        · obtain ⟨here, hcompare⟩ := (compareAt_false (toInt_lt i)).mpr
            (hdiffers i (Nat.le_refl _) hlow)
          obtain ⟨more, hrest⟩ := ih.mpr ⟨hlow, by omega,
            fun m hm hmk => hdiffers m (by omega) hmk, hstands⟩
          exact ⟨_, findFrom_succ.mpr (.inr ⟨here, more, hcompare, hrest, rfl⟩)⟩

theorem findFrom_none : ∀ {n i : Nat},
    (∃ reads, findFrom mem value n i = some (none, reads)) ↔
      ∀ m, i ≤ m → m < i + n → DiffersAt mem value (toInt m) := by
  intro n
  induction n with
  | zero =>
      intro i
      refine ⟨fun _ m hlow hhigh => ?_, fun _ => ⟨[], rfl⟩⟩
      omega
  | succ n ih =>
      intro i
      constructor
      · rintro ⟨reads, h⟩ m hlow hhigh
        rcases findFrom_succ.mp h with ⟨-, hk⟩ | ⟨here, more, hcompare, hrest, -⟩
        · cases hk
        · rcases Nat.eq_or_lt_of_le hlow with rfl | hlow
          · exact (compareAt_false (toInt_lt i)).mp ⟨_, hcompare⟩
          · exact ih.mp ⟨more, hrest⟩ m hlow (by omega)
      · intro hdiffers
        obtain ⟨here, hcompare⟩ := (compareAt_false (toInt_lt i)).mpr
          (hdiffers i (Nat.le_refl _) (by omega))
        have hbehind (m : Nat) (hm : i + 1 ≤ m) (hmk : m < i + 1 + n) :
            DiffersAt mem value (toInt m) := hdiffers m (by omega) (by omega)
        obtain ⟨more, hrest⟩ := ih.mpr hbehind
        exact ⟨_, findFrom_succ.mpr (.inr ⟨here, more, hcompare, hrest, rfl⟩)⟩

theorem findFrom_take {size : Nat} {found : Option Nat} : ∀ {n i : Nat} {reads : List Int},
    findFrom (mem.take size) value n i = some (found, reads) ↔
      findFrom mem value n i = some (found, reads) ∧ ∀ p ∈ reads, 0 ≤ p ∧ p < size := by
  intro n
  induction n with
  | zero =>
      intro i reads
      constructor
      · intro h
        cases h
        exact ⟨rfl, nofun⟩
      · exact And.left
  | succ n ih =>
      intro i reads
      rw [findFrom_succ, findFrom_succ]
      constructor
      · rintro (⟨hcompare, hk⟩ | ⟨here, more, hcompare, hrest, rfl⟩)
        · obtain ⟨hwhole, hreads⟩ := compareAt_take.mp hcompare
          exact ⟨.inl ⟨hwhole, hk⟩, hreads⟩
        · obtain ⟨hwhole, hhere⟩ := compareAt_take.mp hcompare
          obtain ⟨hrest', hmore⟩ := ih.mp hrest
          refine ⟨.inr ⟨here, more, hwhole, hrest', rfl⟩, fun p hp => ?_⟩
          exact (List.mem_append.mp hp).elim (hhere p) (hmore p)
      · rintro ⟨⟨hcompare, hk⟩ | ⟨here, more, hcompare, hrest, rfl⟩, hreads⟩
        · exact .inl ⟨compareAt_take.mpr ⟨hcompare, hreads⟩, hk⟩
        · refine .inr ⟨here, more, compareAt_take.mpr ⟨hcompare, fun p hp => ?_⟩,
            ih.mpr ⟨hrest, fun p hp => ?_⟩, rfl⟩
          · exact hreads p (List.mem_append_left _ hp)
          · exact hreads p (List.mem_append_right _ hp)

end Loop

/-! ## Positions that fit into an `int` -/

section Small

variable {mem value : List Byte} {i : Nat}

theorem standsAt_natCast : StandsAt mem value (i : Int) ↔
    (value = [] ∨ i + value.length < 2 ^ 31) ∧ value <+: mem.drop i := by
  induction value generalizing i with
  | nil => exact ⟨fun _ => ⟨.inl rfl, List.nil_prefix⟩, fun _ => standsAt_nil⟩
  | cons c value ih =>
      have hnext := ih (i := i + 1)
      rw [Int.natCast_succ] at hnext
      rw [standsAt_cons, hnext, Int.toNat_natCast, List.length_cons]
      constructor
      · rintro ⟨-, hbound, hfirst, hrest, hprefix⟩
        obtain ⟨hin, hc⟩ := List.getElem?_eq_some_iff.mp hfirst
        refine ⟨.inr ?_, ?_⟩
        · rcases hrest with rfl | hrest
          · rw [List.length_nil]
            omega
          · omega
        · rw [List.drop_eq_getElem_cons hin, hc]
          exact List.cons_prefix_cons.mpr ⟨rfl, hprefix⟩
      · rintro ⟨hbound, hprefix⟩
        have hbound := hbound.resolve_left (List.cons_ne_nil c value)
        have hin : i < mem.length := by
          have hle := hprefix.length_le
          rw [List.length_cons, List.length_drop] at hle
          omega
        rw [List.drop_eq_getElem_cons hin, List.cons_prefix_cons] at hprefix
        refine ⟨by omega, by omega, ?_, .inr (by omega), hprefix.2⟩
        rw [List.getElem?_eq_getElem hin, hprefix.1]

theorem differsAt_natCast (hsmall : mem.length ≤ 2 ^ 31) : DiffersAt mem value (i : Int) ↔
    ¬ value <+: mem.drop i ∧ ¬ mem.drop i <+: value := by
  induction value generalizing i with
  | nil => exact ⟨fun h => absurd h not_differsAt_nil, fun h => absurd List.nil_prefix h.1⟩
  | cons c value ih =>
      have hnext := ih (i := i + 1)
      rw [Int.natCast_succ] at hnext
      rw [differsAt_cons, hnext, Int.toNat_natCast]
      by_cases hin : i < mem.length
      · rw [List.drop_eq_getElem_cons hin, List.getElem?_eq_getElem hin, List.cons_prefix_cons,
          List.cons_prefix_cons]
        constructor
        · rintro ⟨-, -, b, ⟨⟩, hne | ⟨hstands, hends⟩⟩
          · exact ⟨fun h => hne h.1.symm, fun h => hne h.1⟩
          · exact ⟨fun h => hstands h.2, fun h => hends h.2⟩
        · rintro ⟨hstands, hends⟩
          refine ⟨by omega, by omega, _, rfl, ?_⟩
          by_cases heq : mem[i] = c
          · exact .inr ⟨fun h => hstands ⟨heq.symm, h⟩, fun h => hends ⟨heq, h⟩⟩
          · exact .inl heq
      · rw [List.getElem?_eq_none (Nat.le_of_not_lt hin), List.drop_of_length_le (by omega)]
        constructor
        · rintro ⟨-, -, b, h, -⟩
          cases h
        · rintro ⟨-, hends⟩
          rw [List.drop_of_length_le (Nat.le_of_not_lt hin)] at hends
          exact absurd List.nil_prefix hends

/-- In a buffer below 2^31 bytes the comparison is one of letters in a memory. -/
theorem compareAt_isSame (hsmall : mem.length < 2 ^ 31) :
    (compareAt mem value (i : Int)).map Prod.fst = isSame (mem.drop i) value := by
  induction value generalizing i with
  | nil =>
      rw [isSame]
      rfl
  | cons c value ih =>
      by_cases hin : i < mem.length
      · rw [List.drop_eq_getElem_cons hin, isSame, ← ih]
        have hlow : ¬ (i : Int) < 0 := by omega
        have hover : ¬ (i : Int) = 2 ^ 31 - 1 := by omega
        simp only [compareAt, hlow, hover, if_false, Int.toNat_natCast,
          List.getElem?_eq_getElem hin, Option.bind_eq_bind, Option.bind_some, Option.pure_def,
          Int.natCast_succ]
        by_cases heq : mem[i] = c
        · rw [if_neg (not_not_intro heq), if_pos heq]
          cases compareAt mem value ((i : Int) + 1) <;> rfl
        · rw [if_pos heq, if_neg heq]
          rfl
      · rw [List.drop_of_length_le (Nat.le_of_not_lt hin), isSame]
        simp only [compareAt, Int.toNat_natCast, List.getElem?_eq_none (Nat.le_of_not_lt hin),
          Option.bind_eq_bind, Option.bind_none]
        split <;> rfl

/-- There `find` is the loop that looks for a word in a memory. -/
theorem findFrom_scan (hsmall : mem.length < 2 ^ 31) : ∀ {n i : Nat}, i + n ≤ 2 ^ 31 →
    (findFrom mem value n i).map Prod.fst =
      (scan value (mem.drop i) n).map fun found => found.map (i + ·) := by
  intro n
  induction n with
  | zero =>
      intro i _
      rw [scan]
      rfl
  | succ n ih =>
      intro i hbound
      have hcompare : (compareAt mem value (i : Int)).map Prod.fst = isSame (mem.drop i) value :=
        compareAt_isSame hsmall
      have hrest := ih (i := i + 1) (by omega)
      rw [findFrom, toInt_eq (by omega)]
      by_cases hin : i < mem.length
      · rw [List.drop_eq_getElem_cons hin] at hcompare ⊢
        rw [scan, ← hcompare]
        cases compareAt mem value i with
        | none => rfl
        | some s =>
            obtain ⟨isSame, here⟩ := s
            cases isSame with
            | true => rfl
            | false =>
                cases hscan : scan value (mem.drop (i + 1)) n with
                | none =>
                    rw [hscan, Option.map_none, Option.map_eq_none_iff] at hrest
                    simp [hrest]
                | some found =>
                    rw [hscan, Option.map_some] at hrest
                    obtain ⟨s, hloop, hs⟩ := Option.map_eq_some_iff.mp hrest
                    cases found with
                    | none => simp [hloop, hs]
                    | some j =>
                        simp only [hloop, hs, Option.bind_eq_bind, Option.bind_some,
                          Bool.false_eq_true, if_false, Option.pure_def, Option.map_some]
                        exact congrArg (some ∘ some) (Nat.succ_add_eq_add_succ i j)
      · rw [List.drop_of_length_le (Nat.le_of_not_lt hin)] at hcompare ⊢
        cases value with
        | nil => rfl
        | cons c value =>
            rw [isSame, Option.map_eq_none_iff] at hcompare
            rw [hcompare, scan, if_neg (List.cons_ne_nil c value)]
            rfl

end Small

/-! ## When the answer is right -/

section Right

variable {content value : List Byte} {startPos i k : Nat}

/-- At every position up to the first one at which the value stands the comparison, whose
position is an `int`, tells so inside the content. -/
def Legible (content value : List Byte) (startPos : Nat) : Prop :=
  ∀ k, startPos ≤ k → k < content.length →
    (∀ m, startPos ≤ m → m < k → ¬ Occurs content value m) →
      (Occurs content value k → StandsAt content value (toInt k)) ∧
        (¬ Occurs content value k → DiffersAt content value (toInt k))

/-- The first position with a property, if there is one. -/
theorem exists_first {P : Nat → Prop} {a b : Nat} (h : ∃ i, a ≤ i ∧ i < b ∧ P i) :
    ∃ i, a ≤ i ∧ i < b ∧ P i ∧ ∀ k, a ≤ k → k < i → ¬ P k := by
  classical
  have hspec := Nat.find_spec h
  refine ⟨Nat.find h, hspec.1, hspec.2.1, hspec.2.2, fun k hlow hhigh hk => ?_⟩
  exact Nat.find_min h hhigh ⟨hlow, by omega, hk⟩

/-- A search in which each comparison comes to its end finds the first occurrence. -/
theorem Legible.findFrom (h : Legible content value startPos) :
    ∃ found reads, KvStore.findFrom content value (content.length - startPos) startPos =
      some (found, reads) ∧ Finds content value startPos found := by
  by_cases hsome : ∃ i, startPos ≤ i ∧ i < content.length ∧ Occurs content value i
  · obtain ⟨i, hlow, hhigh, hocc, hfirst⟩ := exists_first hsome
    have hin : i < startPos + (content.length - startPos) := by omega
    have hdiffers (m : Nat) (hm : startPos ≤ m) (hmi : m < i) :
        DiffersAt content value (toInt m) :=
      (h m hm (Nat.lt_trans hmi hhigh) fun k hk hkm =>
        hfirst k hk (Nat.lt_trans hkm hmi)).2 (hfirst m hm hmi)
    obtain ⟨reads, hrun⟩ :=
      findFrom_some.mpr ⟨hlow, hin, hdiffers, (h i hlow hhigh hfirst).1 hocc⟩
    exact ⟨some i, reads, hrun, hlow, hocc, hfirst⟩
  · have hnone (k : Nat) (hk : startPos ≤ k) : ¬ Occurs content value k :=
      fun hocc => hsome ⟨k, hk, hocc.1, hocc⟩
    have hdiffers (m : Nat) (hm : startPos ≤ m)
        (hmn : m < startPos + (content.length - startPos)) : DiffersAt content value (toInt m) :=
      (h m hm (by omega) fun k hk _ => hnone k hk).2 (hnone m hm)
    obtain ⟨reads, hrun⟩ := findFrom_none.mpr hdiffers
    exact ⟨none, reads, hrun, hnone⟩

/-- **`find` reads inside the content and finds the first occurrence** exactly if each
comparison up to there comes to its end inside the content. -/
theorem find_iff (a : Block) (value : List Byte) (startPos : Nat) :
    (∃ found reads, a.find value startPos = some (found, reads) ∧
        Finds a.content value startPos found ∧ ∀ p ∈ reads, 0 ≤ p ∧ p < a.size) ↔
      Legible a.content value startPos := by
  have hlength := a.length_content
  have htake (found : Option Nat) (reads : List Int) :
      a.find value startPos = some (found, reads) ∧ (∀ p ∈ reads, 0 ≤ p ∧ p < a.size) ↔
        findFrom a.content value (a.size - startPos) startPos = some (found, reads) :=
    findFrom_take.symm
  constructor
  · rintro ⟨found, reads, hrun, hfinds, hreads⟩
    have hrun' := (htake found reads).mp ⟨hrun, hreads⟩
    intro k hlow hhigh hnone
    cases found with
    | none =>
        refine ⟨fun hocc => absurd hocc (hfinds k hlow), fun _ => ?_⟩
        exact findFrom_none.mp ⟨reads, hrun'⟩ k hlow (by omega)
    | some i =>
        obtain ⟨hi, hin, hdiffers, hstands⟩ := findFrom_some.mp ⟨reads, hrun'⟩
        obtain ⟨-, hocc, hfirst⟩ := hfinds
        have hki : k ≤ i := Nat.le_of_not_lt fun hlt => hnone i hi hlt hocc
        rcases Nat.eq_or_lt_of_le hki with rfl | hki
        · exact ⟨fun _ => hstands, fun hnot => absurd hocc hnot⟩
        · exact ⟨fun hk => absurd hk (hfirst k hlow hki), fun _ => hdiffers k hlow hki⟩
  · intro hlegible
    obtain ⟨found, reads, hrun, hfinds⟩ := hlegible.findFrom
    rw [hlength] at hrun
    obtain ⟨hrun', hreads⟩ := (htake found reads).mpr hrun
    exact ⟨found, reads, hrun', hfinds, hreads⟩

/-- Below 2^31 bytes: the value stands somewhere, or no end of the content is a beginning
of it. -/
theorem legible_iff (hsmall : content.length < 2 ^ 31) :
    Legible content value startPos ↔
      (∃ i, startPos ≤ i ∧ Occurs content value i) ∨
        ∀ i, startPos ≤ i → i < content.length → ¬ content.drop i <+: value := by
  constructor
  · intro hlegible
    by_cases hsome : ∃ i, startPos ≤ i ∧ Occurs content value i
    · exact .inl hsome
    · refine .inr fun i hlow hhigh => ?_
      have hnone (k : Nat) (hk : startPos ≤ k) : ¬ Occurs content value k :=
        fun hocc => hsome ⟨k, hk, hocc⟩
      have hdiffers := (hlegible i hlow hhigh fun k hk _ => hnone k hk).2 (hnone i hlow)
      rw [toInt_eq (Nat.lt_trans hhigh hsmall)] at hdiffers
      exact ((differsAt_natCast (Nat.le_of_lt hsmall)).mp hdiffers).2
  · intro h k hlow hhigh hfirst
    rw [toInt_eq (Nat.lt_trans hhigh hsmall), standsAt_natCast,
      differsAt_natCast (Nat.le_of_lt hsmall)]
    refine ⟨fun hocc => ⟨.inr ?_, hocc.2⟩, fun hnot => ⟨fun hstands => hnot ⟨hhigh, hstands⟩, ?_⟩⟩
    · have hle := hocc.2.length_le
      rw [List.length_drop] at hle
      omega
    · rcases h with ⟨i, hi, hocc⟩ | hnone
      · -- the value ends at the latest with the content, so it is no longer than this end
        intro hends
        have hki : k < i := Nat.lt_of_not_le fun hik => by
          rcases Nat.eq_or_lt_of_le hik with rfl | hik
          · exact hnot hocc
          · exact hfirst i hi hik hocc
        have hle := hends.length_le
        have hle' := hocc.2.length_le
        rw [List.length_drop] at hle hle'
        have hin := hocc.1
        omega
      · exact hnone k hlow hhigh

end Right

/-- An `x` and an `A` in four bytes do not contain an `A` with a NUL behind it, but the
buffer does. -/
theorem find_in_slack :
    ¬ ∃ found reads, (⟨[0x78, 0x41, 0, 0], 2, by decide⟩ : Block).find [0x41, 0] 0 =
        some (found, reads) ∧
      Finds [0x78, 0x41] [0x41, 0] 0 found ∧ ∀ p ∈ reads, 0 ≤ p ∧ p < (2 : Nat) := by
  rintro ⟨found, reads, hrun, -, hreads⟩
  have hslack : (⟨[0x78, 0x41, 0, 0], 2, by decide⟩ : Block).find [0x41, 0] 0 =
      some (some 1, [0, 1, 2]) := by decide
  rw [hslack] at hrun
  cases hrun
  exact absurd (hreads 2 (by decide)) (by decide)

/-- In a buffer below 2^31 bytes the search is the one of the parser's arrays. -/
theorem find_block (B value : Bytes) (startPos : Nat) (hsmall : B.capacity < 2 ^ 31) :
    (B.block.find value.content startPos).map Prod.fst = (B.find value startPos).toOption := by
  have hlength : B.memory.length < 2 ^ 31 := B.length_memory.symm ▸ hsmall
  have hfits : B.size ≤ B.capacity := B.fits
  by_cases hstart : startPos ≤ B.size
  · have hbound : startPos + (B.size - startPos) ≤ 2 ^ 31 := by omega
    have hscan : (findFrom B.memory value.content (B.size - startPos) startPos).map Prod.fst =
        (scan value.content (B.memory.drop startPos) (B.size - startPos)).map
          fun found => found.map (startPos + ·) := findFrom_scan hlength hbound
    rw [Bytes.find]
    refine hscan.trans ?_
    cases scan value.content (B.memory.drop startPos) (B.size - startPos) <;> rfl
  · have hnone : B.size - startPos = 0 := by omega
    rw [Bytes.find, hnone, scan, Block.find, show B.block.size = B.size from rfl, hnone]
    rfl

end LearnSpace.KvStore
