import LearnSpace.Keel.Mirror
import LearnSpace.KvStore.ByteArray

/-!
# The byte order of a host address

`CMHostAddress` keeps an address in network order and takes it as a number, so its constructor
reverses the bytes of its own member, and `fromHostName` reverses those of the answer before it
hands them to the constructor. Both do it in place, with `reverseByteEndian`. A buffer is its
bytes, and an access outside of it has no outcome.
-/

namespace LearnSpace.Network.HostAddress

open Keel
open KvStore (Byte)

/-- `desP[i] = b`. -/
def store (desP : List Byte) (i : Nat) (b : Byte) : Option (List Byte) :=
  if i < desP.length then some (desP.set i b) else none

/-- One iteration of the loop of `reverseByteEndian`; `len - 1 - i` is a `ulong`. -/
def exchange (len : UInt32) (desP : List Byte) (i : Nat) : Option (List Byte) := do
  let tmpValue ← desP[i]?
  let b ← desP[(len - 1 - UInt32.ofNat i).toNat]?
  let desP ← store desP i b
  store desP (len - 1 - UInt32.ofNat i).toNat tmpValue

/-- `reverseByteEndian`. -/
def reverseByteEndian (des : List Byte) (len : UInt32) : Option (List Byte) :=
  (List.range (len / 2).toNat).foldlM (exchange len) des

/-- `CMHostAddress(uint ip)`, from the bytes of a `uint` in memory to those of `m_ip`. -/
def construct (ip : List Byte) : Option (List Byte) := reverseByteEndian ip 4

/-- The address `fromHostName` makes of the `sa_data` of an answer. -/
def fromAnswer (saData : List Byte) : Option (List Byte) := do
  let ip ← Buffer.slice saData 2 4
  let ip ← reverseByteEndian ip 4
  construct ip

variable {des : List Byte} {len : UInt32} {i : Nat}

theorem mirror_toNat (hi : i < len.toNat) :
    (len - 1 - UInt32.ofNat i).toNat = len.toNat - 1 - i := by
  have hlt := len.toNat_lt
  have hindex : (UInt32.ofNat i).toNat = i :=
    UInt32.toNat_ofNat_of_lt' (Nat.lt_trans hi len.toNat_lt)
  rw [UInt32.toNat_sub, UInt32.toNat_sub, hindex, UInt32.toNat_one]
  omega

theorem store_eq (h : i < des.length) (b : Byte) : store des i b = some (des.set i b) := if_pos h

/-- An iteration exchanges two mirrored bytes. -/
theorem exchange_eq (hlen : len.toNat ≤ des.length) (hi : i < len.toNat / 2) {a b : Byte}
    (ha : des[i]? = some a) (hb : des[len.toNat - 1 - i]? = some b) :
    exchange len des i = some ((des.set i b).set (len.toNat - 1 - i) a) := by
  have hfirst : i < des.length := by omega
  have hlast : len.toNat - 1 - i < (des.set i b).length := by
    rw [List.length_set]
    omega
  simp only [exchange, mirror_toNat (show i < len.toNat by omega), ha, hb, store_eq hfirst,
    store_eq hlast, Option.bind_eq_bind, Option.bind_some]

theorem reverseByteEndian_eq (h : len.toNat ≤ des.length) :
    reverseByteEndian des len = some (reverseFront len.toNat des) := by
  have hhalf : (len / 2).toNat = len.toNat / 2 := UInt32.toNat_div len 2
  have hstep : ∀ (s ys : List Byte) (i : Nat) (a b : Byte), (s = ys ∧ ys.length = des.length) →
      i < len.toNat / 2 → ys[i]? = some a → ys[len.toNat - 1 - i]? = some b →
        ∃ s', exchange len s i = some s' ∧ s' = (ys.set i b).set (len.toNat - 1 - i) a ∧
          ((ys.set i b).set (len.toNat - 1 - i) a).length = des.length := by
    rintro s ys i a b ⟨rfl, hlength⟩ hi ha hb
    refine ⟨_, exchange_eq (hlength ▸ h) hi ha hb, rfl, ?_⟩
    rw [List.length_set, List.length_set, hlength]
  obtain ⟨s', hfold, hs', -⟩ :=
    reverse_run (fun s ys => s = ys ∧ ys.length = des.length)
      (⟨rfl, rfl⟩ : des = des ∧ des.length = des.length) h hstep
  rw [reverseByteEndian, hhalf, hfold, hs']

/-- **Byte order.** Within its buffer `reverseByteEndian` reverses the first bytes, leaves the
others, and undoes itself. -/
theorem reverseByteEndian_reverses (des : List Byte) (len : UInt32) (h : len.toNat ≤ des.length) :
    reverseByteEndian des len = some ((des.take len.toNat).reverse ++ des.drop len.toNat) ∧
      (reverseByteEndian des len).bind (reverseByteEndian · len) = some des := by
  have hback : len.toNat ≤ (reverseFront len.toNat des).length := by
    rwa [length_reverseFront]
  refine ⟨reverseByteEndian_eq h, ?_⟩
  rw [reverseByteEndian_eq h, Option.bind_some, reverseByteEndian_eq hback, reverseFront_twice h]

theorem reverseByteEndian_reverses_odd :
    reverseByteEndian [1, 2, 3, 4] 3 = some [3, 2, 1, 4] ∧
      (reverseByteEndian [1, 2, 3, 4] 3).bind (reverseByteEndian · 3) = some [1, 2, 3, 4] :=
  reverseByteEndian_reverses [1, 2, 3, 4] 3 (by decide)

/-- An address of an answer is stored as it came, in network order. -/
theorem fromAnswer_eq {saData : List Byte} (h : 6 ≤ saData.length) :
    fromAnswer saData = some ((saData.drop 2).take 4) := by
  have hfour : ((saData.drop 2).take 4).length = 4 := by
    rw [List.length_take, List.length_drop]
    omega
  have htwice :=
    (reverseByteEndian_reverses ((saData.drop 2).take 4) 4 (Nat.le_of_eq hfour.symm)).2
  rw [fromAnswer, Buffer.slice_eq h]
  exact htwice

end LearnSpace.Network.HostAddress
