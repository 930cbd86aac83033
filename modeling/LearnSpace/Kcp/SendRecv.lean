import LearnSpace.Kcp.Pieces
import LearnSpace.Kcp.Receiver
import LearnSpace.Kcp.Wire

/-!
# Sending and receiving messages

What `ikcp_send` puts behind the queue (`send_spec`) and what `ikcp_recv` takes from the front of
the other one (`recv_spec`).
-/

namespace LearnSpace.Kcp

open Keel

theorem int_eq {x : UInt32} (h : x.toNat < 2 ^ 31) : int x = x.toNat := by
  rw [← int_ofNat h, UInt32.ofNat_toNat]

theorem ofInt_natCast (l : Nat) : UInt32.ofInt (l : Int) = UInt32.ofNat l := by
  apply UInt32.toNat_inj.mp
  rw [UInt32.ofInt, UInt32.toNat_ofNat', UInt32.toNat_ofNat']
  omega

namespace IKCPCB

/-- A control block with segments of a size that can be. -/
structure Sized (kcp : IKCPCB) : Prop where
  pos : 0 < kcp.mss.toNat
  lt : kcp.mss.toNat < 2 ^ 31

variable {kcp kcp' : IKCPCB} {buffer : List Byte} {len ret : Int}

/-- `ikcp_setmtu` refuses what is too small for a header and some data. -/
theorem Sized.setmtu {mtu : Int} (h : kcp.Sized) (hmtu : mtu < 2 ^ 31) :
    (kcp.ikcp_setmtu mtu).1.Sized := by
  unfold ikcp_setmtu
  split
  · exact h
  · rename_i hlarge
    have hle : 50 ≤ mtu := by omega
    obtain ⟨m, rfl⟩ := Int.eq_ofNat_of_zero_le (show 0 ≤ mtu by omega)
    have hmss : (UInt32.ofInt (m : Int) - IKCP_OVERHEAD).toNat = m - 24 := by
      rw [ofInt_natCast, UInt32.toNat_sub, UInt32.toNat_ofNat']
      show (2 ^ 32 - 24 + _) % 2 ^ 32 = _
      omega
    refine ⟨?_, ?_⟩
    · show 0 < (UInt32.ofInt (m : Int) - IKCP_OVERHEAD).toNat
      omega
    · show (UInt32.ofInt (m : Int) - IKCP_OVERHEAD).toNat < 2 ^ 31
      omega

/-! ## Sending -/

/-- How many segments `l` bytes make. -/
theorem segment_count (hsized : kcp.Sized) {l : Nat} (hl : l < 2 ^ 31) :
    (if (l : Int) ≤ int kcp.mss then 1
      else int ((UInt32.ofInt (l : Int) + kcp.mss - 1) / kcp.mss)) =
      ((if l ≤ kcp.mss.toNat then 1 else (l + kcp.mss.toNat - 1) / kcp.mss.toNat : Nat) : Int) := by
  have hpos := hsized.pos
  have hlt := hsized.lt
  rw [int_eq hlt]
  by_cases hle : l ≤ kcp.mss.toNat
  · rw [if_pos (by omega), if_pos hle]
    rfl
  · have hsum : (UInt32.ofInt (l : Int) + kcp.mss - 1).toNat = l + kcp.mss.toNat - 1 := by
      rw [ofInt_natCast, UInt32.toNat_sub, UInt32.toNat_add, UInt32.toNat_ofNat']
      show (2 ^ 32 - 1 + _) % 2 ^ 32 = _
      omega
    have hdiv : ((UInt32.ofInt (l : Int) + kcp.mss - 1) / kcp.mss).toNat =
        (l + kcp.mss.toNat - 1) / kcp.mss.toNat := by
      rw [UInt32.toNat_div, hsum]
    have hsmall : (l + kcp.mss.toNat - 1) / kcp.mss.toNat < 2 ^ 31 := by
      refine Nat.div_lt_of_lt_mul ?_
      have hmul : 2 ^ 31 * 1 ≤ 2 ^ 31 * kcp.mss.toNat := Nat.mul_le_mul_left _ hpos
      have hcomm : kcp.mss.toNat * 2 ^ 31 = 2 ^ 31 * kcp.mss.toNat := Nat.mul_comm _ _
      omega
    rw [if_neg (by omega), if_neg hle, int_eq (by rw [hdiv]; exact hsmall), hdiv]

/-- `l` bytes in segments of `m`: at least one, enough, and more than 127 only if it must be. -/
theorem segment_count_spec {l m : Nat} (hm : 0 < m) :
    let count := if l ≤ m then 1 else (l + m - 1) / m
    0 < count ∧ l ≤ count * m ∧ (128 ≤ count ↔ 127 * m < l) := by
  intro count
  by_cases hle : l ≤ m
  · have hcount : count = 1 := if_pos hle
    rw [hcount]
    refine ⟨Nat.one_pos, by omega, ?_⟩
    omega
  · have hcount : count = (l + m - 1) / m := if_neg hle
    have hbelow : l + m - 1 < count * m + m := by
      rw [hcount]
      exact Nat.lt_div_mul_add hm
    have hmany : 128 ≤ count ↔ 128 * m ≤ l + m - 1 := by
      rw [hcount]
      exact Nat.le_div_iff_mul_le hm
    have hone : 1 ≤ count ↔ 1 * m ≤ l + m - 1 := by
      rw [hcount]
      exact Nat.le_div_iff_mul_le hm
    refine ⟨by omega, by omega, ?_⟩
    omega

/-- **Segments of their own.** More than 127 segments are refused; otherwise they are framed and
have all the bytes, and without streaming they are one message. -/
theorem enqueue_spec (hsized : kcp.Sized) (hl : buffer.length < 2 ^ 31) :
    (127 * kcp.mss.toNat < buffer.length ∧ kcp.enqueue buffer buffer.length = (kcp, -2)) ∨
      buffer.length ≤ 127 * kcp.mss.toNat ∧ ∃ segs : List IKCPSEG,
        kcp.enqueue buffer buffer.length =
          ({ kcp with
            snd_queue := kcp.snd_queue ++ segs
            nsnd_que := kcp.nsnd_que + UInt32.ofNat segs.length }, 0) ∧
        (∀ seg ∈ segs, seg.frg.toNat < 127 ∧ seg.data.length ≤ kcp.mss.toNat) ∧
        Framed (segs.map IKCPSEG.frg) ∧ segs.flatMap IKCPSEG.data = buffer ∧
        (kcp.stream = 0 → messages (segs.map IKCPSEG.piece) = [buffer]) := by
  obtain ⟨hone, henough, hmany⟩ := segment_count_spec hsized.pos (l := buffer.length)
  have hint := segment_count hsized hl
  have hmss : int kcp.mss = kcp.mss.toNat := int_eq hsized.lt
  generalize hcount : (if buffer.length ≤ kcp.mss.toNat then 1
    else (buffer.length + kcp.mss.toNat - 1) / kcp.mss.toNat) = count at hone henough hmany hint
  unfold enqueue
  dsimp only
  rw [hint]
  by_cases hrefuse : 128 ≤ count
  · exact .inl ⟨hmany.mp hrefuse, if_pos (Int.ofNat_le.mpr hrefuse)⟩
  · have hfew : ¬ (count : Int) ≥ int IKCP_WND_RCV := fun h => hrefuse (Int.ofNat_le.mp h)
    rw [if_neg hfew, if_neg (by omega), Int.toNat_natCast, hmss]
    have hbytes : (fragments kcp.mss.toNat kcp.stream count buffer buffer.length).flatMap
        IKCPSEG.data = buffer := by
      rw [fragments_bytes (Int.natCast_nonneg _) count buffer _ (Int.natCast_nonneg _)
        (by exact_mod_cast henough), Int.toNat_natCast, List.take_length]
    refine .inr ⟨by omega, _, rfl, ?_, fragments_framed _ _ _ _ _, hbytes, ?_⟩
    · intro seg hseg
      have hfrg := fragments_frg_lt hseg
      exact ⟨by omega, Int.ofNat_le.mp (fragments_data (Int.natCast_nonneg _) count _ _ seg hseg)⟩
    · intro hstream
      obtain ⟨n, rfl⟩ := Nat.exists_eq_add_one_of_ne_zero (Nat.ne_of_gt hone)
      rw [hstream] at hbytes ⊢
      rw [messages, fragments_messages _ n (by omega), hbytes]
      rfl

/-- A queue whose last segment was filled up to `mss` with some of the bytes, and the rest of
them. -/
structure Filled (mss : Nat) (queue : List IKCPSEG) (buffer : List Byte) (filled : List IKCPSEG)
    (rest : List Byte) : Prop where
  length : filled.length = queue.length
  fits : ∀ seg ∈ filled, seg.Fits
  sized : ∀ seg ∈ filled, seg ∈ queue ∨ seg.data.length ≤ mss
  bytes : ∃ part, part ++ rest = buffer ∧
    filled.flatMap IKCPSEG.data = queue.flatMap IKCPSEG.data ++ part
  frgs : (∀ frg ∈ (queue.map IKCPSEG.frg).getLast?, frg = 0) →
    filled.map IKCPSEG.frg = queue.map IKCPSEG.frg

theorem fillLast_spec (hsized : kcp.Sized) (hl : buffer.length < 2 ^ 31)
    (hfits : ∀ seg ∈ kcp.snd_queue, seg.Fits) : ∃ filled rest,
      kcp.fillLast buffer buffer.length =
        ({ kcp with snd_queue := filled }, rest, (rest.length : Int)) ∧
      Filled kcp.mss.toNat kcp.snd_queue buffer filled rest := by
  have hsame : Filled kcp.mss.toNat kcp.snd_queue buffer kcp.snd_queue buffer :=
    ⟨rfl, hfits, fun _ hseg => .inl hseg, ⟨[], rfl, (List.append_nil _).symm⟩, fun _ => rfl⟩
  unfold fillLast
  split
  · exact ⟨_, _, rfl, hsame⟩
  · rename_i old hlast
    split
    · rename_i hroom
      have hqueue : kcp.snd_queue.dropLast ++ [old] = kcp.snd_queue :=
        List.dropLast_append_getLast? old hlast
      have hold := hfits old (hqueue ▸ List.mem_append_right _ List.mem_cons_self)
      have hlen : old.len.toNat = old.data.length := by
        have hlt := hold.2
        rw [IKCPSEG.len, UInt32.toNat_ofNat', Nat.mod_eq_of_lt (by omega)]
      have hless : old.data.length < kcp.mss.toNat := hlen ▸ UInt32.lt_iff_toNat_lt.mp hroom
      have hcapacity : int (kcp.mss - old.len) = kcp.mss.toNat - old.data.length := by
        have hsub : (kcp.mss - old.len).toNat = kcp.mss.toNat - old.data.length := by
          rw [UInt32.toNat_sub_of_le _ _ (UInt32.le_of_lt hroom), hlen]
        have hlt := hsized.lt
        rw [int_eq (by omega), hsub]
        omega
      generalize hextend : (if (buffer.length : Int) < int (kcp.mss - old.len) then
        (buffer.length : Int) else int (kcp.mss - old.len)) = extend
      have hle : 0 ≤ extend ∧ extend ≤ buffer.length ∧
          extend ≤ kcp.mss.toNat - old.data.length := by
        rw [hcapacity] at hextend
        split at hextend <;> omega
      dsimp only
      rw [hextend]
      have hdata : (old.data ++ buffer.take extend.toNat).length ≤ kcp.mss.toNat := by
        have htake := List.length_take_le extend.toNat buffer
        rw [List.length_append]
        omega
      refine ⟨_, _, Prod.ext rfl (Prod.ext rfl ?_), ?_, ?_, ?_,
        ⟨buffer.take extend.toNat, List.take_append_drop _ _, ?_⟩, ?_⟩
      · show (buffer.length : Int) - extend = (buffer.drop extend.toNat).length
        rw [List.length_drop]
        omega
      · rw [← congrArg List.length hqueue, List.length_append, List.length_append]
        rfl
      · intro seg hseg
        rcases List.mem_append.mp hseg with hseg | hseg
        · exact hfits seg (hqueue ▸ List.mem_append_left _ hseg)
        · rw [List.mem_singleton.mp hseg]
          exact ⟨Nat.two_pow_pos 8, Nat.lt_of_le_of_lt hdata hsized.lt⟩
      · intro seg hseg
        rcases List.mem_append.mp hseg with hseg | hseg
        · exact .inl (hqueue ▸ List.mem_append_left _ hseg)
        · rw [List.mem_singleton.mp hseg]
          exact .inr hdata
      · rw [← congrArg (List.flatMap IKCPSEG.data) hqueue]
        simp only [List.flatMap_append, List.flatMap_singleton, List.append_assoc]
      · intro hframed
        rw [← hqueue] at hframed ⊢
        rw [List.map_append, List.map_append]
        have hzero : old.frg = 0 := hframed _ (by
          rw [List.map_append, List.map_singleton, List.getLast?_concat]
          rfl)
        simp [hzero]
    · exact ⟨_, _, rfl, hsame⟩

/-- What `ikcp_send` has done with the queue: its last segment may be filled up, and some segments
may be behind it. -/
structure Queued (kcp : IKCPCB) (buffer : List Byte) (ret : Int)
    (filled segs : List IKCPSEG) : Prop where
  result : ret = 0 ∨ ret = -2
  length : filled.length = kcp.snd_queue.length
  fits : ∀ seg ∈ filled ++ segs, seg.Fits
  small : ∀ seg ∈ segs, seg.frg.toNat < 127
  sized : ∀ seg ∈ filled ++ segs, seg ∈ kcp.snd_queue ∨ seg.data.length ≤ kcp.mss.toNat
  frgs : (∀ frg ∈ (kcp.snd_queue.map IKCPSEG.frg).getLast?, frg = 0) →
    filled.map IKCPSEG.frg = kcp.snd_queue.map IKCPSEG.frg
  framed : Framed (segs.map IKCPSEG.frg)
  bytes : ∃ part rest, part ++ rest = buffer ∧ (ret = 0 → rest = []) ∧
    (filled ++ segs).flatMap IKCPSEG.data = kcp.snd_queue.flatMap IKCPSEG.data ++ part
  message : kcp.stream = 0 → filled = kcp.snd_queue ∧
    (ret = 0 ∧ messages (segs.map IKCPSEG.piece) = [buffer] ∨ ret = -2 ∧ segs = [])

theorem enqueue_queued {filled : List IKCPSEG} {rest : List Byte} (hsized : kcp.Sized)
    (hl : buffer.length < 2 ^ 31) (hfilled : Filled kcp.mss.toNat kcp.snd_queue buffer filled rest)
    (hmessage : kcp.stream = 0 → filled = kcp.snd_queue ∧ rest = buffer)
    (h : ({ kcp with snd_queue := filled } : IKCPCB).enqueue rest rest.length = (kcp', ret)) :
    ∃ segs, Queued kcp buffer ret filled segs ∧
      kcp' = { kcp with
        snd_queue := filled ++ segs
        nsnd_que := kcp.nsnd_que + UInt32.ofNat segs.length } := by
  obtain ⟨part, hpart, hbytes⟩ := hfilled.bytes
  have hle : rest.length ≤ buffer.length := by
    rw [← hpart, List.length_append]
    omega
  have hsized' : ({ kcp with snd_queue := filled } : IKCPCB).Sized := ⟨hsized.pos, hsized.lt⟩
  rcases enqueue_spec hsized' (Nat.lt_of_le_of_lt hle hl) with
    ⟨-, heq⟩ | ⟨-, segs, heq, hsegs, hframed, hrest, hone⟩
  · rw [heq] at h
    cases h
    refine ⟨[], ⟨.inr rfl, hfilled.length, ?_, fun _ hseg => absurd hseg List.not_mem_nil, ?_,
      hfilled.frgs, framed_nil, ⟨part, rest, hpart, ?_, ?_⟩, ?_⟩, ?_⟩
    · rw [List.append_nil]
      exact hfilled.fits
    · rw [List.append_nil]
      exact hfilled.sized
    · intro hzero
      cases hzero
    · rw [List.append_nil]
      exact hbytes
    · exact fun hstream => ⟨(hmessage hstream).1, .inr ⟨rfl, rfl⟩⟩
    · rw [List.append_nil]
      show _ = ({ kcp with snd_queue := filled, nsnd_que := kcp.nsnd_que + 0 } : IKCPCB)
      rw [UInt32.add_zero]
  · rw [heq] at h
    cases h
    refine ⟨segs, ⟨.inl rfl, hfilled.length, ?_, fun seg hseg => (hsegs seg hseg).1, ?_,
      hfilled.frgs, hframed, ⟨buffer, [], List.append_nil _, fun _ => rfl, ?_⟩, ?_⟩, rfl⟩
    · intro seg hseg
      rcases List.mem_append.mp hseg with hseg | hseg
      · exact hfilled.fits seg hseg
      · obtain ⟨hfrg, hdata⟩ := hsegs seg hseg
        exact ⟨Nat.lt_trans hfrg (by decide), Nat.lt_of_le_of_lt hdata hsized.lt⟩
    · intro seg hseg
      exact (List.mem_append.mp hseg).elim (hfilled.sized seg) fun hseg =>
        .inr (hsegs seg hseg).2
    · rw [List.flatMap_append, hrest, hbytes, List.append_assoc, hpart]
    · intro hstream
      obtain ⟨hqueue, hall⟩ := hmessage hstream
      exact ⟨hqueue, .inl ⟨rfl, hall ▸ hone hstream⟩⟩

/-- **What `ikcp_send` does.** When it refuses, streaming may have taken some of the bytes. -/
theorem send_spec (hsized : kcp.Sized) (hl : buffer.length < 2 ^ 31)
    (hfits : ∀ seg ∈ kcp.snd_queue, seg.Fits)
    (h : kcp.ikcp_send buffer buffer.length = some (kcp', ret)) :
    ∃ filled segs, Queued kcp buffer ret filled segs ∧
      kcp' = { kcp with
        snd_queue := filled ++ segs
        nsnd_que := kcp.nsnd_que + UInt32.ofNat segs.length } := by
  have hmss : ¬ kcp.mss = 0 := fun hzero => Nat.ne_of_gt hsized.pos (congrArg UInt32.toNat hzero)
  unfold ikcp_send at h
  rw [if_neg hmss, if_neg (Int.not_lt.mpr (Int.natCast_nonneg _))] at h
  by_cases hstream : kcp.stream = 0
  · rw [if_neg (not_not_intro hstream)] at h
    have hfilled : Filled kcp.mss.toNat kcp.snd_queue buffer kcp.snd_queue buffer :=
      ⟨rfl, hfits, fun _ hseg => .inl hseg, ⟨[], rfl, (List.append_nil _).symm⟩, fun _ => rfl⟩
    exact ⟨_, enqueue_queued hsized hl hfilled (fun _ => ⟨rfl, rfl⟩) (Option.some.inj h)⟩
  · rw [if_pos hstream] at h
    obtain ⟨filled, rest, heq, hfilled⟩ := fillLast_spec hsized hl hfits
    rw [heq] at h
    dsimp only at h
    have hmessage : kcp.stream = 0 → filled = kcp.snd_queue ∧ rest = buffer :=
      fun hzero => absurd hzero hstream
    split at h
    · -- all the bytes went into the last segment
      rename_i hnone
      have hnil : rest = [] := List.eq_nil_of_length_eq_zero (by omega)
      obtain ⟨part, hpart, hbytes⟩ := hfilled.bytes
      cases h
      refine ⟨filled, [], ⟨.inl rfl, hfilled.length, ?_, fun _ hseg => absurd hseg List.not_mem_nil,
        ?_, hfilled.frgs, framed_nil, ⟨part, rest, hpart, fun _ => hnil, ?_⟩,
        fun hzero => absurd hzero hstream⟩, ?_⟩
      · rw [List.append_nil]
        exact hfilled.fits
      · rw [List.append_nil]
        exact hfilled.sized
      · rw [List.append_nil]
        exact hbytes
      · rw [List.append_nil]
        show _ = ({ kcp with snd_queue := filled, nsnd_que := kcp.nsnd_que + 0 } : IKCPCB)
        rw [UInt32.add_zero]
    · exact ⟨filled, enqueue_queued hsized hl hfilled hmessage (Option.some.inj h)⟩

/-- What does not depend on the queue is kept. -/
theorem send_keeps {α : Type} (f : IKCPCB → α)
    (hf : ∀ (k : IKCPCB) queue count, f { k with snd_queue := queue, nsnd_que := count } = f k)
    {buffer : List Byte} {len : Int} (h : kcp.ikcp_send buffer len = some (kcp', ret)) :
    f kcp' = f kcp := by
  have henqueue : ∀ (k : IKCPCB) (buffer : List Byte) (len : Int),
      f (k.enqueue buffer len).1 = f k := by
    intro k buffer len
    unfold enqueue
    dsimp only
    by_cases hmany : (if len ≤ int k.mss then 1
      else int ((UInt32.ofInt len + k.mss - 1) / k.mss)) ≥ int IKCP_WND_RCV
    · rw [if_pos hmany]
    · rw [if_neg hmany]
      exact hf k _ _
  have hfill : f (kcp.fillLast buffer len).1 = f kcp := by
    unfold fillLast
    split
    · rfl
    · split
      · exact hf kcp _ kcp.nsnd_que
      · rfl
  unfold ikcp_send at h
  split at h
  · cases h
  · split at h
    · cases h
      rfl
    · split at h
      · dsimp only at h
        split at h
        · cases h
          exact hfill
        · have hkeep := henqueue (kcp.fillLast buffer len).1 (kcp.fillLast buffer len).2.1
            (kcp.fillLast buffer len).2.2
          rw [Option.some.inj h] at hkeep
          exact hkeep.trans hfill
      · have hkeep := henqueue kcp buffer len
        rwa [Option.some.inj h] at hkeep

/-! ## Receiving -/

/-- **What `ikcp_recv` does.** It fails and changes nothing, or it copies the first segments up to
the end of their message, which stay there when it peeks. -/
theorem recv_spec {bytes : List Byte} (h : kcp.ikcp_recv len = some (kcp', ret, bytes)) :
    (ret < 0 ∧ kcp' = kcp ∧ bytes = []) ∨
      (kcp.rcv_queue ≠ [] ∧ 0 ≤ ret ∧ ret = kcp.ikcp_peeksize ∧
        ret = int (totalLen (splitMessage kcp.rcv_queue).1) ∧
        bytes = (splitMessage kcp.rcv_queue).1.flatMap IKCPSEG.data ∧
        ∃ probe, kcp' =
          { (kcp.dropMessage (len < 0)).moveAvailable (kcp.dropMessage (len < 0)).rcv_buf with
            probe := probe }) := by
  unfold ikcp_recv at h
  split at h
  · cases h
    exact .inl ⟨by decide, rfl, rfl⟩
  · rename_i hne
    obtain ⟨room, -, h⟩ := Option.bind_eq_some_iff.mp h
    dsimp only at h
    split at h
    · cases h
      exact .inl ⟨by decide, rfl, rfl⟩
    · rename_i hpeek
      split at h
      · cases h
        exact .inl ⟨by decide, rfl, rfl⟩
      · unfold takeMessage at h
        dsimp only at h
        by_cases hsize : int (totalLen (splitMessage kcp.rcv_queue).1) = kcp.ikcp_peeksize
        · rw [if_neg (not_not_intro hsize)] at h
          obtain ⟨hkcp, hrest⟩ := Prod.mk.inj (Option.some.inj h)
          obtain ⟨hret, hbytes⟩ := Prod.mk.inj hrest
          refine .inr ⟨hne, by omega, by omega, hret.symm, hbytes.symm, ?_⟩
          rw [← hkcp]
          split
          · exact ⟨_, rfl⟩
          · exact ⟨((kcp.dropMessage (len < 0)).moveAvailable
              (kcp.dropMessage (len < 0)).rcv_buf).probe, rfl⟩
        · rw [if_pos hsize] at h
          cases h

theorem dropMessage_keeps (kcp : IKCPCB) (ispeek : Bool) :
    (kcp.dropMessage ispeek).settings = kcp.settings ∧
      (kcp.dropMessage ispeek).sending = kcp.sending ∧
      (kcp.dropMessage ispeek).acklist = kcp.acklist := by
  cases ispeek
  · exact ⟨rfl, rfl, rfl⟩
  · exact ⟨rfl, rfl, rfl⟩

/-- `ikcp_recv` is of the receiving half. -/
theorem recv_keeps {bytes : List Byte} (h : kcp.ikcp_recv len = some (kcp', ret, bytes)) :
    kcp'.settings = kcp.settings ∧ kcp'.sending = kcp.sending ∧ kcp'.acklist = kcp.acklist := by
  rcases recv_spec h with ⟨-, rfl, -⟩ | ⟨-, -, -, -, -, probe, rfl⟩
  · exact ⟨rfl, rfl, rfl⟩
  · obtain ⟨hsettings, hsending, hlist⟩ := dropMessage_keeps kcp (len < 0)
    refine ⟨?_, ?_, ?_⟩
    · exact (moveAvailable_keeps settings (fun _ _ _ _ _ _ => rfl) _ _).trans hsettings
    · exact (moveAvailable_keeps sending (fun _ _ _ _ _ _ => rfl) _ _).trans hsending
    · exact (moveAvailable_keeps acklist (fun _ _ _ _ _ _ => rfl) _ _).trans hlist

/-- A message that can be looked at is there whole. -/
theorem peeksize_whole {seg : IKCPSEG} {segs : List IKCPSEG} (hqueue : kcp.rcv_queue = seg :: segs)
    (hcount : kcp.nrcv_que = UInt32.ofNat kcp.rcv_queue.length)
    (hlength : kcp.rcv_queue.length < 2 ^ 32) (hfrg : seg.frg.toNat < 256)
    (hpeek : 0 ≤ kcp.ikcp_peeksize) : seg.frg.toNat ≤ segs.length := by
  unfold ikcp_peeksize at hpeek
  rw [hqueue] at hpeek hcount hlength
  dsimp only at hpeek
  by_cases hzero : seg.frg = 0
  · rw [hzero]
    exact Nat.zero_le _
  · rw [if_neg hzero] at hpeek
    split at hpeek
    · exact absurd hpeek (by decide)
    · rename_i henough
      rw [UInt32.lt_iff_toNat_lt, hcount, UInt32.toNat_add, UInt32.toNat_ofNat',
        Nat.mod_eq_of_lt hlength, List.length_cons] at henough
      have hone : (1 : UInt32).toNat = 1 := rfl
      omega

end IKCPCB

variable {kcp kcp' : IKCPCB} {r : Arq Piece} {taken : List Piece} {bytes : List Byte}
  {len ret : Int}

/-- The receiver gives the first message away. -/
theorem Receiver.dropMessage (h : Receiver kcp r taken) :
    Receiver (kcp.dropMessage false) r
      (taken ++ (IKCPCB.splitMessage kcp.rcv_queue).1.map IKCPSEG.piece) where
  nxt := h.nxt
  queue := by
    rw [h.queue, List.append_assoc]
    show _ = taken ++ (_ ++ (IKCPCB.splitMessage kcp.rcv_queue).2.map IKCPSEG.piece)
    rw [← List.map_append, IKCPCB.splitMessage_append]
  count := by
    have hlength := congrArg List.length (IKCPCB.splitMessage_append kcp.rcv_queue)
    rw [List.length_append] at hlength
    show kcp.nrcv_que - _ = UInt32.ofNat (IKCPCB.splitMessage kcp.rcv_queue).2.length
    rw [h.count, ← hlength, UInt32.ofNat_add, UInt32.add_comm, UInt32.add_sub_cancel]
  sorted := h.sorted
  early := h.early

/-- **A message that is taken** has all its pieces. -/
theorem Receiver.recv (h : Receiver kcp r taken) (hsound : r.Sound)
    (hshort : r.sent.length < 2 ^ 31)
    (hchain : (kcp.rcv_queue.map IKCPSEG.frg).IsChain fun a b => a ≠ 0 → a = b + 1)
    (hfrg : ∀ seg ∈ kcp.rcv_queue, seg.frg.toNat < 256)
    (hrecv : kcp.ikcp_recv len = some (kcp', ret, bytes)) :
    ∃ r' taken', Arq.Receives r r' ∧ Receiver kcp' r' (taken ++ taken') ∧
      Framed (taken'.map Prod.fst) ∧
      messages taken' = if 0 ≤ len ∧ 0 ≤ ret then [bytes] else [] := by
  rcases IKCPCB.recv_spec hrecv with ⟨hret, rfl, rfl⟩ | ⟨hne, hret, hpeek, -, hbytes, probe, hkcp⟩
  · refine ⟨r, [], .refl, by rwa [List.append_nil], framed_nil, ?_⟩
    rw [if_neg fun hboth => by omega]
    rfl
  · have hlength : kcp.rcv_queue.length ≤ r.sent.length := by
      have hout := congrArg List.length h.queue
      rw [List.length_append, List.length_map] at hout
      have hle := List.IsPrefix.length_le hsound.out
      omega
    obtain ⟨seg, segs, hqueue⟩ := List.exists_cons_of_ne_nil hne
    have hwhole := IKCPCB.peeksize_whole hqueue h.count (by omega)
      (hfrg seg (hqueue ▸ List.mem_cons_self)) (hpeek ▸ hret)
    obtain ⟨hmessages, hframed⟩ :=
      IKCPCB.splitMessage_messages segs [] (by rwa [hqueue] at hchain) hwhole
    rw [← hqueue] at hmessages hframed
    by_cases hlen : len < 0
    · rw [decide_eq_true hlen] at hkcp
      obtain ⟨r', hreceives, hmoved⟩ := h.moveBuf hsound hshort
      refine ⟨r', [], hreceives, ?_, framed_nil, ?_⟩
      · rw [hkcp, List.append_nil]
        exact hmoved.congr rfl rfl rfl rfl
      · rw [if_neg fun hboth => by omega]
        rfl
    · rw [decide_eq_false hlen] at hkcp
      obtain ⟨r', hreceives, hmoved⟩ := h.dropMessage.moveBuf hsound hshort
      refine ⟨r', (IKCPCB.splitMessage kcp.rcv_queue).1.map IKCPSEG.piece, hreceives, ?_, ?_, ?_⟩
      · rw [hkcp]
        exact hmoved.congr rfl rfl rfl rfl
      · rw [List.map_map]
        exact hframed
      · rw [if_pos ⟨Int.not_lt.mp hlen, hret⟩, hbytes]
        exact hmessages

end LearnSpace.Kcp
