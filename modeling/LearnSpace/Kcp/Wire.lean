import LearnSpace.Kcp.Frames

/-!
# Segments on the wire

A segment that is written and read back is what it was, but for the fields that have fewer bits
on the wire and those that are not written at all (`onWire`). So `ikcp_input` of some segments
one behind the other handles them one after the other, and returns 0 (`input_segs`).
-/

namespace LearnSpace.Kcp

open Keel

namespace IKCPSEG

/-- The segment as it arrives. -/
def onWire (seg : IKCPSEG) : IKCPSEG :=
  { conv := seg.conv
    cmd := UInt32.ofNat (seg.cmd.toNat % 256)
    frg := UInt32.ofNat (seg.frg.toNat % 256)
    wnd := UInt32.ofNat (seg.wnd.toNat % 65536)
    ts := seg.ts
    sn := seg.sn
    una := seg.una
    data := seg.data }

/-- What is written for a segment. -/
def bytes (seg : IKCPSEG) : List Byte := ikcp_encode_seg seg ++ seg.data

end IKCPSEG

variable {seg : IKCPSEG} {segs : List IKCPSEG} {rest : List Byte}

theorem decode_bytes (k : Nat) (x : UInt32) (rest : List Byte) :
    decode k (LittleEndian.bytes k x.toNat ++ rest) =
      some (UInt32.ofNat (x.toNat % 256 ^ k), rest) := by
  have hlength := LittleEndian.length_bytes k x.toNat
  rw [decode, if_pos (by rw [List.length_append]; omega), List.take_left' hlength,
    List.drop_left' hlength, LittleEndian.value_bytes]

theorem decode_four (x : UInt32) (rest : List Byte) :
    decode 4 (ikcp_encode32u x ++ rest) = some (x, rest) := by
  have hmod : x.toNat % 256 ^ 4 = x.toNat := Nat.mod_eq_of_lt x.toNat_lt
  rw [ikcp_encode32u, decode_bytes, hmod, UInt32.ofNat_toNat]

@[simp] theorem length_encode_seg (seg : IKCPSEG) : (ikcp_encode_seg seg).length = 24 := by
  simp only [ikcp_encode_seg, ikcp_encode32u, ikcp_encode16u, ikcp_encode8u, List.length_append,
    LittleEndian.length_bytes]

theorem IKCPSEG.length_bytes (seg : IKCPSEG) : seg.bytes.length = 24 + seg.data.length := by
  rw [IKCPSEG.bytes, List.length_append, length_encode_seg]

/-- **A header is read as it was written.** -/
theorem decodeSeg_encode (seg : IKCPSEG) (rest : List Byte) :
    decodeSeg (ikcp_encode_seg seg ++ rest) =
      some ({ seg.onWire with data := [] }, seg.len, rest) := by
  have hone (x : UInt32) (rest : List Byte) : decode 1 (ikcp_encode8u x ++ rest) =
      some (UInt32.ofNat (x.toNat % 256), rest) := decode_bytes 1 x rest
  have htwo (x : UInt32) (rest : List Byte) : decode 2 (ikcp_encode16u x ++ rest) =
      some (UInt32.ofNat (x.toNat % 65536), rest) := decode_bytes 2 x rest
  simp only [decodeSeg, ikcp_encode_seg, List.append_assoc, decode_four, hone, htwo,
    Option.bind_eq_bind, Option.bind_some]
  rfl

/-! ## The loop of `ikcp_input` -/

namespace IKCPSEG

/-- A segment that the loop takes in whole. -/
structure Whole (seg : IKCPSEG) (conv : UInt32) : Prop where
  conv : seg.conv = conv
  data : seg.data.length < 2 ^ 31
  cmd : Input.Supported seg.onWire.cmd

theorem Whole.len {conv : UInt32} (w : seg.Whole conv) : seg.len.toNat = seg.data.length := by
  have hlt := w.data
  rw [IKCPSEG.len, UInt32.toNat_ofNat', Nat.mod_eq_of_lt (by omega)]

end IKCPSEG

theorem int_ofNat {n : Nat} (h : n < 2 ^ 31) : int (UInt32.ofNat n) = n := by
  have hdiff := Serial.diff_ofNat (show n < 0 + 2 ^ 31 by omega) (Nat.zero_le _)
  rw [Serial.diff, show UInt32.ofNat 0 = 0 from rfl, UInt32.sub_zero] at hdiff
  rw [int, hdiff]
  omega

namespace Input

/-- An iteration over a segment that is there whole. -/
theorem turn_bytes (s : Input) (rest : List Byte) (w : seg.Whole s.kcp.conv) :
    turn (s, seg.bytes ++ rest) = (s.segment seg.onWire).map fun s => .inl (s, rest) := by
  have hlen := w.len
  have hint : ¬ int seg.len < 0 := by
    rw [IKCPSEG.len, int_ofNat w.data]
    omega
  have hlong : ¬ (seg.data ++ rest).length < seg.len.toNat := by
    rw [List.length_append]
    omega
  have hsize : ¬ (seg.bytes ++ rest).length < IKCP_OVERHEAD.toNat := by
    rw [List.length_append, seg.length_bytes]
    exact Nat.not_lt.mpr (by show 24 ≤ _; omega)
  have hdecode : decodeSeg (seg.bytes ++ rest) =
      some ({ seg.onWire with data := [] }, seg.len, seg.data ++ rest) := by
    rw [IKCPSEG.bytes, List.append_assoc, decodeSeg_encode]
  have hconv : ¬ seg.onWire.conv ≠ s.kcp.conv := not_not_intro w.conv
  have hcmd : ¬ ¬ Supported seg.onWire.cmd := not_not_intro w.cmd
  rw [turn, if_neg hsize, hdecode]
  simp only [Option.bind_eq_bind, Option.bind_some, if_neg hconv, if_neg hcmd, if_neg hlong, hint,
    or_false]
  rw [hlen, List.take_left, List.drop_left, Option.map_eq_bind]
  rfl

/-- Some segments, one after the other. -/
def segments (s : Input) : List IKCPSEG → Option Input
  | [] => some s
  | seg :: segs => (s.segment seg.onWire).bind fun s => segments s segs

/-- The loop over some segments that are there whole. -/
theorem loop_segs (segs : List IKCPSEG) :
    ∀ (fuel : Nat) (s : Input), segs.length < fuel → (∀ seg ∈ segs, seg.Whole s.kcp.conv) →
      Fuel.loop turn fuel (s, segs.flatMap IKCPSEG.bytes) =
        (s.segments segs).map fun s => (s, 0) := by
  induction segs with
  | nil =>
      intro fuel s hfuel _
      cases fuel with
      | zero => exact absurd hfuel (Nat.not_lt_zero _)
      | succ fuel =>
          have hleave : turn (s, []) = some (.inr (s, 0)) := rfl
          exact Fuel.loop_leave hleave fuel
  | cons seg segs ih =>
      intro fuel s hfuel hwhole
      cases fuel with
      | zero => exact absurd hfuel (Nat.not_lt_zero _)
      | succ fuel =>
          rw [Fuel.loop, List.flatMap_cons, turn_bytes s _ (hwhole seg List.mem_cons_self),
            segments]
          cases hsegment : s.segment seg.onWire with
          | none => rfl
          | some t =>
              have hconv : t.kcp.conv = s.kcp.conv :=
                congrArg Settings.conv (segment_settings hsegment)
              exact ih fuel t (Nat.lt_of_succ_lt_succ hfuel) fun other hother =>
                hconv ▸ hwhole other (.tail _ hother)

end Input

theorem length_le_bytes (segs : List IKCPSEG) :
    24 * segs.length ≤ (segs.flatMap IKCPSEG.bytes).length := by
  induction segs with
  | nil => exact Nat.le_refl _
  | cons seg segs ih =>
      rw [List.flatMap_cons, List.length_append, seg.length_bytes, List.length_cons]
      omega

/-- **`ikcp_input` of some segments** that are not too short together handles them one after the
other, and returns 0. -/
theorem IKCPCB.input_segs (kcp : IKCPCB) (hwhole : ∀ seg ∈ segs, seg.Whole kcp.conv)
    (hsize : ¬ int (UInt32.ofNat (segs.flatMap IKCPSEG.bytes).length) < int IKCP_OVERHEAD) :
    kcp.ikcp_input (segs.flatMap IKCPSEG.bytes) =
      (Input.segments { kcp } segs).bind fun s =>
        (s.kcp.settle s.maxack kcp.snd_una).map fun kcp => (kcp, 0) := by
  have hlong := length_le_bytes segs
  rw [ikcp_input, if_neg hsize, Input.loop_segs segs _ _ (by omega) hwhole]
  cases Input.segments { kcp } segs with
  | none => rfl
  | some s => cases hsettle : s.kcp.settle s.maxack kcp.snd_una <;> simp [hsettle]

end LearnSpace.Kcp
