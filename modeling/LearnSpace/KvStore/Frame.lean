import Mathlib.Data.Nat.Digits.Lemmas
import LearnSpace.KvStore.ProtocolCursor

/-!
# Frames

A frame is a body behind its length in decimal and `"\r\n"`. The parser takes
the length to be an `int`, so a body is shorter than 2^31 bytes. The header of
a frame at the front of a message is read back as it was written
(`lineAt_encode`, `numberAt_encode`).
-/

namespace LearnSpace.KvStore

open Keel

/-! ## Decimal numbers -/

/-- The character of a digit. -/
def digitChar (d : Nat) : Byte := UInt8.ofNat (48 + d)

/-- A number in decimal. -/
def decimal (n : Nat) : List Byte :=
  (if n = 0 then [0] else (Nat.digits 10 n).reverse).map digitChar

theorem digitChar_spec : ∀ d, d < 10 →
    isDigit (digitChar d) = true ∧ isSpace (digitChar d) = false ∧
      (digitChar d).toNat - 48 = d ∧ digitChar d ≠ 45 ∧ digitChar d ≠ 43 ∧ digitChar d ≠ 13 := by
  decide

/-- The digits of a number, the most significant one first. -/
theorem decimal_eq (n : Nat) :
    ∃ ds, decimal n = ds.map digitChar ∧ ds ≠ [] ∧ (∀ d ∈ ds, d < 10) ∧
      ds.foldl (fun m d => 10 * m + d) 0 = n := by
  by_cases hn : n = 0
  · exact ⟨[0], by rw [decimal, if_pos hn], by simp, by simp, by simp [hn]⟩
  · refine ⟨(Nat.digits 10 n).reverse, by rw [decimal, if_neg hn], ?_, ?_, ?_⟩
    · rw [ne_eq, List.reverse_eq_nil_iff]
      exact Nat.digits_ne_nil_iff_ne_zero.mpr hn
    · intro d hd
      exact Nat.digits_lt_base (by decide) (List.mem_reverse.mp hd)
    · rw [List.foldl_reverse]
      calc (Nat.digits 10 n).foldr (fun d m => 10 * m + d) 0
          = Nat.ofDigits 10 (Nat.digits 10 n) := by
            rw [Nat.ofDigits_eq_foldr]
            simp only [Nat.cast_id, Nat.add_comm]
        _ = n := Nat.ofDigits_digits 10 n

theorem length_decimal {n : Nat} (h : n < 10 ^ 10) : (decimal n).length ≤ 10 := by
  by_cases hn : n = 0
  · rw [decimal, if_pos hn]
    decide
  · rw [decimal, if_neg hn, List.length_map, List.length_reverse]
    exact (Nat.digits_length_le_iff (by decide) n).mpr h

theorem cr_notMem_decimal (n : Nat) : (13 : Byte) ∉ decimal n := by
  obtain ⟨ds, hds, _, hlt, _⟩ := decimal_eq n
  rw [hds, List.mem_map]
  rintro ⟨d, hd, he⟩
  exact (digitChar_spec d (hlt d hd)).2.2.2.2.2 he

/-- Digits are read up to the zero behind them. -/
theorem digits_map {ds : List Nat} (hds : ∀ d ∈ ds, d < 10) (zs : List Byte) (m : Nat) :
    digits (ds.map digitChar ++ 0 :: zs) m = some (ds.foldl (fun m d => 10 * m + d) m) := by
  induction ds generalizing m with
  | nil => rfl
  | cons d ds ih =>
      obtain ⟨hdigit, _, hval, _⟩ := digitChar_spec d (hds d (List.mem_cons_self ..))
      rw [List.map_cons, List.cons_append, digits, if_pos hdigit, hval,
        ih (fun d' hd' => hds d' (List.mem_cons_of_mem _ hd')), List.foldl_cons]

/-- `atoi` reads a decimal number that fits an `int`. -/
theorem atoi_decimal {n : Nat} (h : n < 2 ^ 31) (zs : List Byte) :
    atoi (decimal n ++ 0 :: zs) = some (n : Int) := by
  obtain ⟨ds, hds, hne, hlt, hfold⟩ := decimal_eq n
  obtain ⟨d, ds', rfl⟩ := List.exists_cons_of_ne_nil hne
  obtain ⟨hdigit, hspace, _, hminus, hplus, _⟩ :=
    digitChar_spec d (hlt d (List.mem_cons_self ..))
  have hread := digits_map hlt zs 0
  rw [hfold, List.map_cons, List.cons_append] at hread
  have hstrtol : strtol (decimal n ++ 0 :: zs) = some (min (n : Int) (2 ^ 63 - 1)) := by
    rw [strtol, hds, List.map_cons, List.cons_append,
      List.dropWhile_cons_of_neg (by rw [hspace]; exact Bool.false_ne_true)]
    simp only [if_neg hminus, if_neg hplus, hread, Option.map_some]
  rw [atoi, hstrtol, Option.map_some]
  congr 1
  have hmin : min (n : Int) (2 ^ 63 - 1) = n := by omega
  rw [hmin, Int.bmod_def]
  omega

/-! ## Frames -/

/-- A body whose length is an `int`. -/
structure Frame where
  body : List Byte
  fits : body.length < 2 ^ 31

/-- The bytes of a frame: `17\r\n` and so on. -/
def Frame.encode (f : Frame) : List Byte := decimal f.body.length ++ crlf ++ f.body

/-- The bytes of a sequence of frames. -/
def stream (fs : List Frame) : List Byte := (fs.map Frame.encode).flatten

theorem lineAt_encode (f : Frame) (rest : List Byte) :
    lineAt (f.encode ++ rest) 0 = some (decimal f.body.length).length := by
  rw [lineAt, List.drop_zero, Frame.encode, List.append_assoc]
  exact firstOcc_append (cr_notMem_decimal _)

theorem numberAt_encode (f : Frame) (rest : List Byte) :
    numberAt (f.encode ++ rest) 0 (decimal f.body.length).length = some (f.body.length : Int) := by
  have hlen : (decimal f.body.length).length ≤ 10 :=
    length_decimal (f.fits.trans (by decide))
  have htake : ((f.encode ++ rest).drop 0).take (decimal f.body.length).length
      = decimal f.body.length := by
    rw [List.drop_zero, Frame.encode, List.append_assoc, List.append_assoc, List.take_left]
  have hroom : (Bytes.new.append (decimal f.body.length)).size
      < (Bytes.new.append (decimal f.body.length)).capacity :=
    Bytes.fresh_room (fun he => by rw [he] at hlen; exact absurd hlen (by decide))
  obtain ⟨k, hk⟩ := Nat.exists_eq_succ_of_ne_zero (Nat.sub_ne_zero_of_lt hroom)
  rw [numberAt, htake, Bytes.memory_eq, hk]
  exact atoi_decimal f.fits _

theorem toSizeT_natCast {n : Nat} (h : n < 2 ^ 31) : toSizeT n = n := by
  rw [toSizeT]
  omega

end LearnSpace.KvStore
