import LearnSpace.Keel.Arq
import LearnSpace.Kcp.Frames

/-!
# The sending half

The sending half of a control block is a sender of the protocol that repeats until it is
acknowledged: what was moved to `snd_buf` has its number from then on, and what is still there is
what is not settled (`Sender`). Settling a segment, passing over it and sending it again keep
this, as long as fewer than 2^31 segments have a number.
-/

namespace LearnSpace.Kcp

open Keel

/-- What is transferred of a segment: its fragment number and its data. -/
abbrev Piece := UInt32 × List Byte

def IKCPSEG.piece (seg : IKCPSEG) : Piece := (seg.frg, seg.data)

/-- The number of a segment. -/
def IKCPSEG.number (seg : IKCPSEG) : Nat := seg.sn.toNat

/-- A segment that fits into the fields of a header. -/
def IKCPSEG.Fits (seg : IKCPSEG) : Prop := seg.frg.toNat < 256 ∧ seg.data.length < 2 ^ 31

theorem itimediff_eq {a b : UInt32} (ha : a.toNat < 2 ^ 31) (hb : b.toNat < 2 ^ 31) :
    itimediff a b = (a.toNat : Int) - b.toNat :=
  Serial.diff_eq_sub (by omega) (by omega)

/-- In an ordered list the front that is dropped is all that there is to drop. -/
theorem dropWhile_eq_filter {α : Type} {p : α → Bool} {l : List α}
    (hl : l.Pairwise fun a b => p b = true → p a = true) :
    l.dropWhile p = l.filter fun a => !p a := by
  induction l with
  | nil => rfl
  | cons a l ih =>
      obtain ⟨ha, hl⟩ := List.pairwise_cons.mp hl
      cases hpa : p a with
      | true => rw [List.dropWhile_cons_of_pos hpa, ih hl, List.filter_cons_of_neg (by simp [hpa])]
      | false =>
          have hall : ∀ b ∈ a :: l, (!p b) = true := by
            intro b hb
            rw [Bool.not_eq_true']
            rcases List.mem_cons.mp hb with rfl | hb
            · exact hpa
            · by_contra hpb
              rw [Bool.not_eq_false] at hpb
              rw [ha b hb hpb] at hpa
              cases hpa
          rw [List.dropWhile_cons_of_neg (by simp [hpa]), List.filter_eq_self.mpr hall]

/-- The sending half of `kcp` is the sender of `s`. -/
structure Sender (kcp : IKCPCB) (s : Arq Piece) : Prop where
  nxt : kcp.snd_nxt = UInt32.ofNat s.sent.length
  sorted : (kcp.snd_buf.map IKCPSEG.number).Pairwise (· < ·)
  item : ∀ seg ∈ kcp.snd_buf, s.sent[seg.number]? = some seg.piece
  kept : ∀ n, n ∈ s.kept ↔ ∃ seg ∈ kcp.snd_buf, seg.number = n
  form : ∀ seg ∈ kcp.snd_buf, seg.conv = kcp.conv ∧ seg.cmd = IKCP_CMD_PUSH
  fits : ∀ seg ∈ kcp.snd_queue ++ kcp.snd_buf, seg.Fits

variable {kcp kcp' : IKCPCB} {s s' : Arq Piece} {sn una : UInt32} {seg : IKCPSEG}
  {segs : List IKCPSEG}

/-- What the sender needs to know of a segment. -/
def IKCPSEG.key (seg : IKCPSEG) : UInt32 × UInt32 × UInt32 × Piece :=
  (seg.conv, seg.cmd, seg.sn, seg.piece)

theorem IKCPSEG.Fits.congr {seg' : IKCPSEG} (h : seg.Fits) (hkey : seg'.key = seg.key) :
    seg'.Fits := by
  simp only [IKCPSEG.key, IKCPSEG.piece, Prod.mk.injEq] at hkey
  obtain ⟨-, -, -, hfrg, hdata⟩ := hkey
  rw [IKCPSEG.Fits, hfrg, hdata]
  exact h

theorem exists_key {segs segs' : List IKCPSEG} (h : segs'.map IKCPSEG.key = segs.map IKCPSEG.key)
    (hseg : seg ∈ segs') : ∃ seg' ∈ segs, seg'.key = seg.key := by
  have hmem : seg.key ∈ segs.map IKCPSEG.key := h ▸ List.mem_map_of_mem hseg
  obtain ⟨seg', hseg', hkey⟩ := List.mem_map.mp hmem
  exact ⟨seg', hseg', hkey⟩

theorem number_of_key {seg' : IKCPSEG} (h : seg'.key = seg.key) : seg'.number = seg.number :=
  congrArg (fun k => k.2.2.1.toNat) h

theorem map_number_of_keys {segs segs' : List IKCPSEG}
    (h : segs'.map IKCPSEG.key = segs.map IKCPSEG.key) :
    segs'.map IKCPSEG.number = segs.map IKCPSEG.number := by
  have hmap := congrArg (List.map fun k => k.2.2.1.toNat) h
  rwa [List.map_map, List.map_map] at hmap

namespace Sender

/-- Nothing else matters for the sending half. -/
theorem congr (h : Sender kcp s) (hconv : kcp'.conv = kcp.conv) (hnxt : kcp'.snd_nxt = kcp.snd_nxt)
    (hqueue : kcp'.snd_queue = kcp.snd_queue)
    (hbuf : kcp'.snd_buf.map IKCPSEG.key = kcp.snd_buf.map IKCPSEG.key) : Sender kcp' s where
  nxt := hnxt.trans h.nxt
  sorted := by
    rw [map_number_of_keys hbuf]
    exact h.sorted
  item seg hseg := by
    obtain ⟨seg', hseg', hkey⟩ := exists_key hbuf hseg
    have hpiece : seg'.piece = seg.piece := congrArg (fun k => k.2.2.2) hkey
    rw [← number_of_key hkey, ← hpiece]
    exact h.item seg' hseg'
  kept n := by
    rw [h.kept n]
    constructor
    · rintro ⟨seg, hseg, rfl⟩
      obtain ⟨seg', hseg', hkey⟩ := exists_key hbuf.symm hseg
      exact ⟨seg', hseg', number_of_key hkey⟩
    · rintro ⟨seg, hseg, rfl⟩
      obtain ⟨seg', hseg', hkey⟩ := exists_key hbuf hseg
      exact ⟨seg', hseg', number_of_key hkey⟩
  form seg hseg := by
    obtain ⟨seg', hseg', hkey⟩ := exists_key hbuf hseg
    have hform := h.form seg' hseg'
    rw [show seg.conv = seg'.conv from (congrArg Prod.fst hkey).symm,
      show seg.cmd = seg'.cmd from (congrArg (fun k => k.2.1) hkey).symm, hconv]
    exact hform
  fits seg hseg := by
    rw [hqueue] at hseg
    rcases List.mem_append.mp hseg with hseg | hseg
    · exact h.fits seg (List.mem_append_left _ hseg)
    · obtain ⟨seg', hseg', hkey⟩ := exists_key hbuf hseg
      exact (h.fits seg' (List.mem_append_right _ hseg')).congr hkey.symm

/-- The queue may change, if its segments fit. -/
theorem requeue (h : Sender kcp s) {queue : List IKCPSEG} (hfits : ∀ seg ∈ queue, seg.Fits) :
    Sender { kcp with snd_queue := queue } s where
  nxt := h.nxt
  sorted := h.sorted
  item := h.item
  kept := h.kept
  form := h.form
  fits seg hseg := by
    rcases List.mem_append.mp hseg with hseg | hseg
    · exact hfits seg hseg
    · exact h.fits seg (List.mem_append_right _ hseg)

/-- The same for a half that was not touched. -/
theorem keep (h : Sender kcp s) (hsettings : kcp'.settings = kcp.settings)
    (hsending : kcp'.sending = kcp.sending) : Sender kcp' s := by
  have hbuf : kcp'.snd_buf = kcp.snd_buf := congrArg Sending.snd_buf hsending
  exact h.congr (congrArg Settings.conv hsettings) (congrArg Sending.snd_nxt hsending)
    (congrArg Sending.snd_queue hsending) (by rw [hbuf])

/-- The steps of the receiver do not touch the sending half. -/
theorem receive (h : Sender kcp s) (hframe : Arq.ReceiveFrame s s') : Sender kcp s' where
  nxt := by rw [h.nxt, hframe.sent]
  sorted := h.sorted
  item seg hseg := by
    rw [hframe.sent]
    exact h.item seg hseg
  kept n := by rw [hframe.kept, h.kept]
  form := h.form
  fits := h.fits

theorem number_lt (h : Sender kcp s) (hseg : seg ∈ kcp.snd_buf) : seg.number < s.sent.length :=
  (List.getElem?_eq_some_iff.mp (h.item seg hseg)).1

/-! ## Acknowledgments -/

/-- Some segments are taken out of `snd_buf`, and their numbers are settled. -/
theorem filter (h : Sender kcp s) {p : Nat → Bool} (hsent : s'.sent = s.sent)
    (hkept : ∀ n, n ∈ s'.kept ↔ n ∈ s.kept ∧ p n = true) (hconv : kcp'.conv = kcp.conv)
    (hnxt : kcp'.snd_nxt = kcp.snd_nxt) (hqueue : kcp'.snd_queue = kcp.snd_queue)
    (hbuf : kcp'.snd_buf = kcp.snd_buf.filter fun seg => p seg.number) : Sender kcp' s' where
  nxt := by rw [hnxt, h.nxt, hsent]
  sorted := by
    rw [hbuf]
    exact h.sorted.sublist (List.filter_sublist.map _)
  item seg hseg := by
    rw [hbuf] at hseg
    rw [hsent]
    exact h.item seg (List.mem_of_mem_filter hseg)
  kept n := by
    rw [hkept, h.kept, hbuf]
    constructor
    · rintro ⟨⟨seg, hseg, rfl⟩, hp⟩
      exact ⟨seg, List.mem_filter.mpr ⟨hseg, hp⟩, rfl⟩
    · rintro ⟨seg, hseg, rfl⟩
      obtain ⟨hseg, hp⟩ := List.mem_filter.mp hseg
      exact ⟨⟨seg, hseg, rfl⟩, hp⟩
  form seg hseg := by
    rw [hbuf] at hseg
    rw [hconv]
    exact h.form seg (List.mem_of_mem_filter hseg)
  fits seg hseg := by
    rw [hqueue, hbuf] at hseg
    rcases List.mem_append.mp hseg with hseg | hseg
    · exact h.fits seg (List.mem_append_left _ hseg)
    · exact h.fits seg (List.mem_append_right _ (List.mem_of_mem_filter hseg))

/-- `una` settles everything below it. -/
theorem parse_una (h : Sender kcp s) (hsound : s.Sound) (hshort : s.sent.length < 2 ^ 31)
    (huna : una.toNat ∈ s.unas) :
    ∃ s', Arq.Sends s s' ∧ s'.sent = s.sent ∧
      Sender ((kcp.ikcp_parse_una una).ikcp_shrink_buf) s' := by
  have hle : una.toNat ≤ s.sent.length :=
    (hsound.unas _ huna).trans (List.IsPrefix.length_le hsound.out)
  have hdiff : ∀ seg ∈ kcp.snd_buf, itimediff una seg.sn = (una.toNat : Int) - seg.number :=
    fun seg hseg => itimediff_eq (by omega) (Nat.lt_trans (h.number_lt hseg) hshort)
  have hordered : kcp.snd_buf.Pairwise fun a b =>
      decide (itimediff una b.sn > 0) = true → decide (itimediff una a.sn > 0) = true := by
    refine (List.pairwise_map.mp h.sorted).imp_of_mem fun {a b} ha hb hlt => ?_
    rw [decide_eq_true_eq, decide_eq_true_eq, hdiff a ha, hdiff b hb]
    omega
  refine ⟨_, .single (.settleBelow huna), rfl, ?_⟩
  rw [IKCPCB.shrink_buf_eq]
  refine h.filter (p := fun n => una.toNat ≤ n) rfl
    (fun n => and_congr_right fun _ => decide_eq_true_iff.symm) rfl rfl rfl ?_
  refine (dropWhile_eq_filter hordered).trans (List.filter_congr fun seg hseg => ?_)
  rw [hdiff seg hseg, ← decide_not, decide_eq_decide]
  omega

/-- `ikcp_parse_ack` takes out the segment with the number, if anything. -/
theorem takeOut_eq_filter {segs' : List IKCPSEG}
    (hsorted : (segs.map IKCPSEG.number).Pairwise (· < ·))
    (h : IKCPCB.takeOut sn segs = some segs') :
    segs' = segs.filter fun seg => seg.number ≠ sn.toNat := by
  induction segs generalizing segs' with
  | nil => cases h
  | cons seg segs ih =>
      obtain ⟨hless, hsorted⟩ := List.pairwise_cons.mp hsorted
      rw [IKCPCB.takeOut] at h
      by_cases heq : sn = seg.sn
      · -- the others have greater numbers
        rw [if_pos heq] at h
        cases h
        have hall : ∀ other ∈ segs, decide (other.number ≠ sn.toNat) = true := by
          intro other hother
          have hlt : seg.sn.toNat < other.number := hless _ (List.mem_map_of_mem hother)
          rw [decide_eq_true_eq, heq]
          exact Nat.ne_of_gt hlt
        rw [List.filter_cons_of_neg (by simp [heq, IKCPSEG.number]), List.filter_eq_self.mpr hall]
      · have hne : seg.number ≠ sn.toNat := fun hn => heq (UInt32.toNat_inj.mp hn).symm
        rw [if_neg heq] at h
        split at h
        · cases h
        · obtain ⟨rest, hrest, rfl⟩ := Option.map_eq_some_iff.mp h
          rw [List.filter_cons_of_pos (by simpa using hne), ih hsorted hrest]

/-- An acknowledgment settles its number. -/
theorem parse_ack (h : Sender kcp s) (hack : sn.toNat ∈ s.acks) :
    ∃ s', Arq.Sends s s' ∧ s'.sent = s.sent ∧
      Sender ((kcp.ikcp_parse_ack sn).ikcp_shrink_buf) s' := by
  rw [IKCPCB.shrink_buf_eq]
  rcases IKCPCB.parse_ack_spec kcp sn with heq | ⟨segs, htake, heq⟩
  · rw [heq]
    exact ⟨s, .refl, rfl, h.congr rfl rfl rfl rfl⟩
  · rw [heq]
    refine ⟨_, .single (.settle hack), rfl, ?_⟩
    exact h.filter (p := fun n => n ≠ sn.toNat) rfl
      (fun n => and_congr_right fun _ => decide_eq_true_iff.symm) rfl rfl rfl
      (takeOut_eq_filter h.sorted htake)

theorem passOver_keys (sn : UInt32) (segs : List IKCPSEG) :
    (IKCPCB.passOver sn segs).map IKCPSEG.key = segs.map IKCPSEG.key := by
  induction segs with
  | nil => rfl
  | cons seg segs ih =>
      rw [IKCPCB.passOver]
      split
      · rfl
      · split
        · exact congrArg (seg.key :: ·) ih
        · exact congrArg (seg.key :: ·) ih

/-- What `ikcp_input` does behind its loop settles nothing. -/
theorem settle (h : Sender kcp s) {maxack : Option UInt32}
    (hsettle : kcp.settle maxack una = some kcp') : Sender kcp' s := by
  obtain ⟨cwnd, incr, rfl | ⟨sn, rfl⟩⟩ := IKCPCB.settle_spec hsettle
  · exact h.congr rfl rfl rfl rfl
  · exact h.congr rfl rfl rfl (passOver_keys sn kcp.snd_buf)

/-! ## Flushing -/

/-- A segment gets its number. -/
theorem number (h : Sender kcp s) (hshort : s.sent.length < 2 ^ 31) (hfits : seg.Fits)
    (wnd nsnd_que nsnd_buf : UInt32) :
    Sender
      { kcp with
        snd_buf := kcp.snd_buf ++ [kcp.numbered wnd seg]
        nsnd_que := nsnd_que
        nsnd_buf := nsnd_buf
        snd_nxt := kcp.snd_nxt + 1 }
      { s with sent := s.sent ++ [seg.piece], kept := insert s.sent.length s.kept } := by
  have hnumber : (kcp.numbered wnd seg).number = s.sent.length := by
    rw [IKCPSEG.number, IKCPCB.numbered, h.nxt, UInt32.toNat_ofNat', Nat.mod_eq_of_lt (by omega)]
  refine ⟨?nxt, ?sorted, ?item, ?kept, ?form, ?fits⟩
  case nxt =>
    show kcp.snd_nxt + 1 = _
    rw [h.nxt, List.length_append, List.length_singleton, UInt32.ofNat_add]
    rfl
  case sorted =>
    rw [List.map_append, List.pairwise_append]
    refine ⟨h.sorted, List.pairwise_singleton _ _, ?_⟩
    rintro a ha b hb
    obtain ⟨other, hother, rfl⟩ := List.mem_map.mp ha
    rw [List.mem_singleton.mp hb, hnumber]
    exact h.number_lt hother
  case item =>
    intro other hother
    rcases List.mem_append.mp hother with hother | hother
    · rw [List.getElem?_append_left (h.number_lt hother)]
      exact h.item other hother
    · rw [List.mem_singleton.mp hother, hnumber]
      exact List.getElem?_concat_length
  case kept =>
    intro n
    rw [Set.mem_insert_iff, h.kept]
    constructor
    · rintro (rfl | ⟨other, hother, rfl⟩)
      · exact ⟨_, List.mem_append_right _ List.mem_cons_self, hnumber⟩
      · exact ⟨other, List.mem_append_left _ hother, rfl⟩
    · rintro ⟨other, hother, rfl⟩
      rcases List.mem_append.mp hother with hother | hother
      · exact .inr ⟨other, hother, rfl⟩
      · exact .inl (by rw [List.mem_singleton.mp hother, hnumber])
  case form =>
    intro other hother
    rcases List.mem_append.mp hother with hother | hother
    · exact h.form other hother
    · rw [List.mem_singleton.mp hother]
      exact ⟨rfl, rfl⟩
  case fits =>
    intro other hother
    rcases List.mem_append.mp hother with hother | hother
    · exact h.fits other (List.mem_append_left _ hother)
    · rcases List.mem_append.mp hother with hother | hother
      · exact h.fits other (List.mem_append_right _ hother)
      · rw [List.mem_singleton.mp hother]
        exact hfits

/-- The loop that moves segments to `snd_buf` gives each its number. What was numbered and what is
left in the queue stay what they were together. -/
theorem moveToBuf (cwnd wnd : UInt32) (queue : List IKCPSEG) :
    ∀ {kcp : IKCPCB} {s : Arq Piece}, Sender kcp s → queue ⊆ kcp.snd_queue →
      s.sent.length + queue.length < 2 ^ 31 →
      ∃ s', Arq.Sends s s' ∧ Sender (IKCPCB.moveToBuf cwnd wnd kcp queue) s' ∧
        s'.sent ++ (IKCPCB.moveToBuf cwnd wnd kcp queue).snd_queue.map IKCPSEG.piece =
          s.sent ++ queue.map IKCPSEG.piece := by
  induction queue with
  | nil =>
      intro kcp s h _ _
      exact ⟨s, .refl, h.requeue fun _ hseg => absurd hseg List.not_mem_nil, rfl⟩
  | cons newseg queue ih =>
      intro kcp s h hsub hshort
      rw [List.length_cons] at hshort
      rw [IKCPCB.moveToBuf]
      split
      · have hfits : newseg.Fits :=
          h.fits newseg (List.mem_append_left _ (hsub List.mem_cons_self))
        have hlength : (s.sent ++ [newseg.piece]).length + queue.length < 2 ^ 31 := by
          rw [List.length_append, List.length_singleton]
          omega
        obtain ⟨s', hsends, hsender, hpieces⟩ :=
          ih (h.number (by omega) hfits wnd _ _) (fun _ hseg => hsub (.tail _ hseg)) hlength
        refine ⟨s', .head (.number s _) hsends, hsender, hpieces.trans ?_⟩
        rw [List.append_assoc]
        rfl
      · exact ⟨s, .refl, h.requeue fun seg hseg =>
          h.fits seg (List.mem_append_left _ (hsub hseg)), rfl⟩

/-- Everything that is not settled can be transmitted. -/
theorem transmit (h : Sender kcp s) :
    ∃ s', Arq.Sends s s' ∧ Sender kcp s' ∧ s'.sent = s.sent ∧
      ∀ seg ∈ kcp.snd_buf, (seg.number, seg.piece) ∈ s'.items := by
  suffices hall : ∀ segs, segs ⊆ kcp.snd_buf → ∃ s', Arq.Sends s s' ∧ Sender kcp s' ∧
      s'.sent = s.sent ∧ ∀ seg ∈ segs, (seg.number, seg.piece) ∈ s'.items from
    hall kcp.snd_buf (List.Subset.refl _)
  intro segs hsub
  induction segs with
  | nil => exact ⟨s, .refl, h, rfl, fun _ hseg => absurd hseg List.not_mem_nil⟩
  | cons seg segs ih =>
      obtain ⟨s', hsends, hsender, hsent, hitems⟩ := ih fun _ hseg => hsub (.tail _ hseg)
      have hseg := hsub List.mem_cons_self
      refine ⟨_, hsends.tail (.transmit ((hsender.kept _).mpr ⟨seg, hseg, rfl⟩)
        (hsender.item seg hseg)), ⟨hsender.nxt, hsender.sorted, hsender.item, hsender.kept,
          hsender.form, hsender.fits⟩, hsent, ?_⟩
      rintro other (_ | ⟨_, hother⟩)
      · exact Set.mem_insert _ _
      · exact Set.mem_insert_of_mem _ (hitems other hother)

end Sender

end LearnSpace.Kcp
