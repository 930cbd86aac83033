import Mathlib.Data.List.Perm.Subperm
import LearnSpace.Kcp.Connection

/-!
# Bounds that hold whatever comes

What a control block keeps to when any bytes come, from a peer that follows the protocol or not:
the counters are the lengths of the queues, the numbers in `snd_buf` and in `rcv_buf` ascend from
`snd_una` and from `rcv_nxt`, and there are no more segments in flight, and no more that came, than
the windows allow (`bounded`).
-/

namespace LearnSpace.Kcp

open Keel Keel.Serial

variable {W : Nat} {kcp kcp' : IKCPCB} {seg : IKCPSEG} {segs : List IKCPSEG} {sn : UInt32}

/-- There are at most `n` numbers below `n`. -/
theorem length_le_of_ascending {l : List Nat} {n : Nat} (hl : l.Pairwise (· < ·))
    (hlt : ∀ x ∈ l, x < n) : l.length ≤ n := by
  have hsub : l ⊆ List.range n := fun x hx => List.mem_range.mpr (hlt x hx)
  have hle := (List.subperm_of_subset (hl.imp Nat.ne_of_lt) hsub).length_le
  rwa [List.length_range] at hle

theorem ofNat_sub_ofNat_sub {m n : Nat} (h : m ≤ n) :
    UInt32.ofNat n - UInt32.ofNat (n - m) = UInt32.ofNat m := by
  have hsum : UInt32.ofNat n = UInt32.ofNat m + UInt32.ofNat (n - m) := by
    rw [← UInt32.ofNat_add, Nat.add_sub_cancel' h]
  rw [hsum, UInt32.add_sub_cancel]

/-! ## The sending half -/

/-- The counters and the numbers of the segments to be sent. `W` bounds the window. -/
structure Sending.Kept (W : Nat) (half : Sending) : Prop where
  buf : half.nsnd_buf = UInt32.ofNat half.snd_buf.length
  queue : half.nsnd_que = UInt32.ofNat half.snd_queue.length
  una : half.snd_una = (half.snd_buf.head?.map IKCPSEG.sn).getD half.snd_nxt
  ascending : (half.snd_buf.map fun seg => ahead half.snd_una seg.sn).Pairwise (· < ·)
  below : ∀ seg ∈ half.snd_buf, ahead half.snd_una seg.sn < ahead half.snd_una half.snd_nxt
  flight : ahead half.snd_una half.snd_nxt ≤ W

namespace Sending.Kept

variable {half : Sending}

/-- There are no more segments in `snd_buf` than numbers in flight. -/
theorem length_le (h : half.Kept W) : half.snd_buf.length ≤ W := by
  have hle := length_le_of_ascending h.ascending fun n hn => by
    obtain ⟨seg, hseg, rfl⟩ := List.mem_map.mp hn
    exact h.below seg hseg
  rw [List.length_map] at hle
  exact hle.trans h.flight

/-- Some segments are taken out, and `snd_una` is what is left first. -/
theorem takeOut (h : half.Kept W) (hsub : segs.Sublist half.snd_buf) :
    Sending.Kept W
      { half with
        snd_buf := segs
        nsnd_buf := UInt32.ofNat segs.length
        snd_una := (segs.head?.map IKCPSEG.sn).getD half.snd_nxt } := by
  have hasc := h.ascending.sublist (hsub.map _)
  have hle : ∀ seg ∈ segs, ahead half.snd_una ((segs.head?.map IKCPSEG.sn).getD half.snd_nxt) ≤
      ahead half.snd_una seg.sn := by
    intro seg hseg
    cases segs with
    | nil => exact absurd hseg List.not_mem_nil
    | cons first segs =>
        rcases List.mem_cons.mp hseg with rfl | hseg
        · exact Nat.le_refl _
        · exact Nat.le_of_lt ((List.pairwise_cons.mp hasc).1 _ (List.mem_map_of_mem hseg))
  have hnxt : ahead half.snd_una ((segs.head?.map IKCPSEG.sn).getD half.snd_nxt) ≤
      ahead half.snd_una half.snd_nxt := by
    cases segs with
    | nil => exact Nat.le_refl _
    | cons first segs => exact Nat.le_of_lt (h.below first (hsub.subset List.mem_cons_self))
  refine ⟨rfl, h.queue, rfl, ?_, ?_, ?_⟩
  · rw [List.pairwise_map] at hasc ⊢
    refine hasc.imp_of_mem fun {a b} ha hb hlt => ?_
    rw [ahead_rebase (hle a ha), ahead_rebase (hle b hb)]
    have hale := hle a ha
    omega
  · intro seg hseg
    show ahead _ seg.sn < ahead _ half.snd_nxt
    rw [ahead_rebase (hle seg hseg), ahead_rebase hnxt]
    have hlt := h.below seg (hsub.subset hseg)
    have hle := hle seg hseg
    omega
  · show ahead _ half.snd_nxt ≤ W
    rw [ahead_rebase hnxt]
    exact (Nat.sub_le _ _).trans h.flight

/-- Only the numbers of the segments matter. -/
theorem renumber (h : half.Kept W) (hsn : segs.map IKCPSEG.sn = half.snd_buf.map IKCPSEG.sn) :
    Sending.Kept W { half with snd_buf := segs } := by
  have hplace : segs.map (fun seg => ahead half.snd_una seg.sn) =
      half.snd_buf.map fun seg => ahead half.snd_una seg.sn := by
    have hmap := congrArg (List.map (ahead half.snd_una)) hsn
    rwa [List.map_map, List.map_map] at hmap
  have hlength : segs.length = half.snd_buf.length := by
    have hlength := congrArg List.length hsn
    rwa [List.length_map, List.length_map] at hlength
  refine ⟨?_, h.queue, ?_, ?_, ?_, h.flight⟩
  · show half.nsnd_buf = UInt32.ofNat segs.length
    rw [hlength]
    exact h.buf
  · show half.snd_una = (segs.head?.map IKCPSEG.sn).getD half.snd_nxt
    rw [← List.head?_map, hsn, List.head?_map]
    exact h.una
  · show (segs.map fun seg => ahead half.snd_una seg.sn).Pairwise (· < ·)
    rw [hplace]
    exact h.ascending
  · intro seg hseg
    have hmem : ahead half.snd_una seg.sn ∈ half.snd_buf.map fun seg => ahead half.snd_una seg.sn :=
      hplace ▸ List.mem_map_of_mem hseg
    obtain ⟨other, hother, heq⟩ := List.mem_map.mp hmem
    rw [← heq]
    exact h.below other hother

/-- The queue is as long as its counter says. -/
theorem requeue (h : half.Kept W) (queue : List IKCPSEG) :
    Sending.Kept W
      { half with snd_queue := queue, nsnd_que := UInt32.ofNat queue.length } :=
  ⟨h.buf, rfl, h.una, h.ascending, h.below, h.flight⟩

/-- A segment is moved into the window. -/
theorem number (h : half.Kept W) (hW : W < 2 ^ 31) {cwnd : UInt32} (hcwnd : cwnd.toNat ≤ W)
    (hroom : itimediff half.snd_nxt (half.snd_una + cwnd) < 0) (hsn : seg.sn = half.snd_nxt) :
    Sending.Kept W
      { half with
        snd_buf := half.snd_buf ++ [seg]
        nsnd_buf := half.nsnd_buf + 1
        snd_nxt := half.snd_nxt + 1 } := by
  have hflight := h.flight
  have hlt : ahead half.snd_una half.snd_nxt < cwnd.toNat :=
    ahead_lt_of_diff_neg (by omega) (by omega) hroom
  have hnxt : ahead half.snd_una (half.snd_nxt + 1) = ahead half.snd_una half.snd_nxt + 1 :=
    ahead_succ (by omega)
  refine ⟨?_, h.queue, ?_, ?_, ?_, ?_⟩
  · show half.nsnd_buf + 1 = UInt32.ofNat (half.snd_buf ++ [seg]).length
    rw [h.buf, List.length_append, List.length_singleton, UInt32.ofNat_add]
    rfl
  · show half.snd_una = ((half.snd_buf ++ [seg]).head?.map IKCPSEG.sn).getD (half.snd_nxt + 1)
    have huna := h.una
    cases hbuf : half.snd_buf with
    | nil =>
        rw [hbuf] at huna
        exact huna.trans hsn.symm
    | cons first rest =>
        rw [hbuf] at huna
        exact huna
  · show ((half.snd_buf ++ [seg]).map fun seg => ahead half.snd_una seg.sn).Pairwise (· < ·)
    rw [List.map_append, List.pairwise_append]
    refine ⟨h.ascending, List.pairwise_singleton _ _, ?_⟩
    rintro a ha b hb
    obtain ⟨other, hother, rfl⟩ := List.mem_map.mp ha
    rw [List.mem_singleton.mp hb]
    show ahead half.snd_una other.sn < ahead half.snd_una seg.sn
    rw [hsn]
    exact h.below other hother
  · intro other hother
    show ahead half.snd_una other.sn < ahead half.snd_una (half.snd_nxt + 1)
    rw [hnxt]
    rcases List.mem_append.mp hother with hother | hother
    · exact Nat.lt_succ_of_lt (h.below other hother)
    · rw [List.mem_singleton.mp hother, hsn]
      exact Nat.lt_succ_self _
  · show ahead half.snd_una (half.snd_nxt + 1) ≤ W
    omega

/-- The loop that fills the window. -/
theorem moveToBuf (hW : W < 2 ^ 31) {cwnd : UInt32} (hcwnd : cwnd.toNat ≤ W) (wnd : UInt32)
    (queue : List IKCPSEG) :
    ∀ {kcp : IKCPCB}, Sending.Kept W { kcp.sending with snd_queue := queue } →
      (IKCPCB.moveToBuf cwnd wnd kcp queue).sending.Kept W := by
  induction queue with
  | nil => exact fun {kcp} h => h
  | cons newseg queue ih =>
      intro kcp h
      rw [IKCPCB.moveToBuf]
      split
      case isTrue hroom =>
        have hcount : kcp.nsnd_que - 1 = UInt32.ofNat queue.length := by
          rw [show kcp.nsnd_que = _ from h.queue, List.length_cons, UInt32.ofNat_add]
          exact UInt32.add_sub_cancel _ _
        have hmoved := (h.number hW hcwnd hroom
          (show (kcp.numbered wnd newseg).sn = kcp.snd_nxt from rfl)).requeue queue
        rw [← hcount] at hmoved
        exact ih hmoved
      case isFalse => exact h

/-- `una` takes segments out in front. -/
theorem parse_una (h : kcp.sending.Kept W) (una : UInt32) :
    ((kcp.ikcp_parse_una una).ikcp_shrink_buf).sending.Kept W := by
  have hsub : (kcp.snd_buf.dropWhile fun seg => itimediff una seg.sn > 0).Sublist kcp.snd_buf :=
    List.dropWhile_sublist _
  have htaken := h.takeOut hsub
  have hcount := ofNat_sub_ofNat_sub hsub.length_le
  rw [← show kcp.nsnd_buf = UInt32.ofNat kcp.snd_buf.length from h.buf] at hcount
  rw [← hcount] at htaken
  rw [IKCPCB.shrink_buf_eq]
  exact htaken

theorem takeOut_sublist {segs' : List IKCPSEG} (h : IKCPCB.takeOut sn segs = some segs') :
    segs'.Sublist segs ∧ segs'.length + 1 = segs.length := by
  induction segs generalizing segs' with
  | nil => cases h
  | cons seg segs ih =>
      rw [IKCPCB.takeOut] at h
      split at h
      · cases h
        exact ⟨List.sublist_cons_self _ _, rfl⟩
      · split at h
        · cases h
        · obtain ⟨rest, hrest, rfl⟩ := Option.map_eq_some_iff.mp h
          exact ⟨(ih hrest).1.cons_cons _, congrArg Nat.succ (ih hrest).2⟩

/-- An acknowledgment takes one segment out. -/
theorem parse_ack (h : kcp.sending.Kept W) (sn : UInt32) :
    ((kcp.ikcp_parse_ack sn).ikcp_shrink_buf).sending.Kept W := by
  rw [IKCPCB.shrink_buf_eq]
  rcases IKCPCB.parse_ack_spec kcp sn with heq | ⟨segs, htake, heq⟩
  · have hall := h.takeOut (List.Sublist.refl _)
    rw [← h.buf] at hall
    rw [heq]
    exact hall
  · obtain ⟨hsub, hlength⟩ := takeOut_sublist htake
    have htaken := h.takeOut hsub
    have hcount : kcp.nsnd_buf - 1 = UInt32.ofNat segs.length := by
      rw [show kcp.nsnd_buf = UInt32.ofNat kcp.snd_buf.length from h.buf, ← hlength,
        UInt32.ofNat_add]
      exact UInt32.add_sub_cancel _ _
    rw [← hcount] at htaken
    rw [heq]
    exact htaken

end Sending.Kept

/-! ## The receiving half -/

/-- The counters and the numbers of the segments that came. -/
structure Receiving.Kept (W : Nat) (half : Receiving) : Prop where
  buf : half.nrcv_buf = UInt32.ofNat half.rcv_buf.length
  queue : half.nrcv_que = UInt32.ofNat half.rcv_queue.length
  ascending : (half.rcv_buf.map fun seg => ahead half.rcv_nxt seg.sn).Pairwise (· < ·)
  below : ∀ seg ∈ half.rcv_buf, ahead half.rcv_nxt seg.sn < W
  room : half.rcv_queue.length ≤ W

/-- An empty queue does not wait for a segment that is there. -/
def Receiving.Ready (half : Receiving) : Prop :=
  half.rcv_queue = [] → ∀ seg ∈ half.rcv_buf.head?, seg.sn ≠ half.rcv_nxt

namespace Receiving.Kept

variable {half : Receiving}

theorem length_le (h : half.Kept W) : half.rcv_buf.length ≤ W := by
  have hle := length_le_of_ascending h.ascending fun n hn => by
    obtain ⟨seg, hseg, rfl⟩ := List.mem_map.mp hn
    exact h.below seg hseg
  rwa [List.length_map] at hle

/-- The next segment goes to the queue. -/
theorem toQueue (h : Receiving.Kept W { kcp.receiving with rcv_buf := seg :: segs })
    (hW : W < 2 ^ 31) (hwnd : kcp.rcv_wnd.toNat ≤ W) (hnext : seg.sn = kcp.rcv_nxt)
    (hroom : kcp.nrcv_que < kcp.rcv_wnd) :
    Receiving.Kept W { (kcp.toQueue seg).receiving with rcv_buf := segs } := by
  obtain ⟨hless, hsorted⟩ := List.pairwise_cons.mp h.ascending
  have hlength : kcp.rcv_queue.length ≤ W := h.room
  have hcount : kcp.nrcv_que.toNat = kcp.rcv_queue.length := by
    rw [show kcp.nrcv_que = UInt32.ofNat kcp.rcv_queue.length from h.queue, UInt32.toNat_ofNat',
      Nat.mod_eq_of_lt (by omega)]
  have hone : ahead kcp.rcv_nxt (kcp.rcv_nxt + 1) = 1 := by
    rw [ahead_succ (by rw [ahead_self]; decide), ahead_self]
  have hpos : ∀ other ∈ segs, 0 < ahead kcp.rcv_nxt other.sn := by
    intro other hother
    have hlt := hless _ (List.mem_map_of_mem hother)
    have hzero : ahead kcp.rcv_nxt seg.sn = 0 := by rw [hnext, ahead_self]
    exact hzero ▸ hlt
  have hshift : ∀ other ∈ segs,
      ahead (kcp.rcv_nxt + 1) other.sn = ahead kcp.rcv_nxt other.sn - 1 := by
    intro other hother
    have hle : ahead kcp.rcv_nxt (kcp.rcv_nxt + 1) ≤ ahead kcp.rcv_nxt other.sn :=
      hone ▸ hpos other hother
    rw [ahead_rebase hle, hone]
  refine ⟨?_, ?_, ?_, ?_, ?_⟩
  · show kcp.nrcv_buf - 1 = UInt32.ofNat segs.length
    rw [show kcp.nrcv_buf = UInt32.ofNat (seg :: segs).length from h.buf, List.length_cons,
      UInt32.ofNat_add]
    exact UInt32.add_sub_cancel _ _
  · show kcp.nrcv_que + 1 = UInt32.ofNat (kcp.rcv_queue ++ [seg]).length
    rw [show kcp.nrcv_que = _ from h.queue, List.length_append, List.length_singleton,
      UInt32.ofNat_add]
    rfl
  · show (segs.map fun seg => ahead (kcp.rcv_nxt + 1) seg.sn).Pairwise (· < ·)
    rw [List.pairwise_map] at hsorted ⊢
    refine hsorted.imp_of_mem fun {a b} ha hb hlt => ?_
    have ha' := hpos a ha
    have hlt' : ahead kcp.rcv_nxt a.sn < ahead kcp.rcv_nxt b.sn := hlt
    rw [hshift a ha, hshift b hb]
    omega
  · intro other hother
    show ahead (kcp.rcv_nxt + 1) other.sn < W
    have hlt : ahead kcp.rcv_nxt other.sn < W := h.below other (.tail _ hother)
    rw [hshift other hother]
    omega
  · show (kcp.rcv_queue ++ [seg]).length ≤ W
    have hlt := UInt32.lt_iff_toNat_lt.mp hroom
    rw [List.length_append, List.length_singleton]
    omega

/-- Moving segments to the queue leaves none behind that an empty queue waits for. -/
theorem moveAvailable (hW : W < 2 ^ 31) (segs : List IKCPSEG) :
    ∀ {kcp : IKCPCB}, kcp.rcv_wnd.toNat ≤ W → 0 < kcp.rcv_wnd.toNat →
      Receiving.Kept W { kcp.receiving with rcv_buf := segs } →
      (kcp.moveAvailable segs).receiving.Kept W ∧ (kcp.moveAvailable segs).receiving.Ready := by
  induction segs with
  | nil => exact fun {kcp} _ _ h => ⟨h, fun _ _ hseg => by cases hseg⟩
  | cons seg segs ih =>
      intro kcp hwnd hpos h
      rw [IKCPCB.moveAvailable]
      split
      case isTrue hnext => exact ih hwnd hpos (h.toQueue hW hwnd hnext.1 hnext.2)
      case isFalse hstop =>
        refine ⟨h, fun hnil other hother heq => hstop ?_⟩
        cases hother
        refine ⟨heq, UInt32.lt_iff_toNat_lt.mpr ?_⟩
        rw [show kcp.nrcv_que = UInt32.ofNat kcp.rcv_queue.length from h.queue,
          show kcp.rcv_queue = [] from hnil]
        exact hpos

/-- A segment of the window is put in its place. -/
theorem storeSeg (h : kcp.receiving.Kept W) (hW : W < 2 ^ 31)
    (hwindow : ahead kcp.rcv_nxt seg.sn < W) : (kcp.storeSeg seg).receiving.Kept W := by
  have hasc : (kcp.rcv_buf.map fun seg => ahead kcp.rcv_nxt seg.sn).Pairwise (· < ·) := h.ascending
  have hdiff : ∀ other ∈ kcp.rcv_buf.reverse, itimediff seg.sn other.sn =
      (ahead kcp.rcv_nxt seg.sn : Int) - ahead kcp.rcv_nxt other.sn := by
    intro other hother
    have hlt : ahead kcp.rcv_nxt other.sn < W := h.below other (List.mem_reverse.mp hother)
    exact diff_eq_ahead (Nat.lt_trans hwindow hW) (Nat.lt_trans hlt hW)
  have hspec := Receiver.insertBack_spec (Receiver.pairwise_map_reverse.mpr hasc) hdiff
    fun other _ hsame => (ahead_inj hsame).symm
  unfold IKCPCB.storeSeg
  cases hinsert : IKCPCB.insertBack seg kcp.rcv_buf.reverse with
  | none => exact h
  | some segs' =>
      rw [hinsert] at hspec
      obtain ⟨hsorted, hmem, hlength⟩ := hspec
      refine ⟨?_, h.queue, ?_, ?_, h.room⟩
      · show kcp.nrcv_buf + 1 = UInt32.ofNat segs'.reverse.length
        rw [show kcp.nrcv_buf = UInt32.ofNat kcp.rcv_buf.length from h.buf, List.length_reverse,
          hlength, List.length_reverse, UInt32.ofNat_add]
        rfl
      · show (segs'.reverse.map fun seg => ahead kcp.rcv_nxt seg.sn).Pairwise (· < ·)
        exact Receiver.pairwise_map_reverse.mp (by rwa [List.reverse_reverse])
      · intro other hother
        rcases (hmem other).mp (List.mem_reverse.mp hother) with rfl | hother
        · exact hwindow
        · exact h.below other (List.mem_reverse.mp hother)

/-- Data is refused unless it is in the window. -/
theorem parse_data (h : kcp.receiving.Kept W) (hready : kcp.receiving.Ready) (hW : W < 2 ^ 31)
    (hwnd : kcp.rcv_wnd.toNat ≤ W) (hpos : 0 < kcp.rcv_wnd.toNat) (seg : IKCPSEG) :
    (kcp.ikcp_parse_data seg).receiving.Kept W ∧ (kcp.ikcp_parse_data seg).receiving.Ready := by
  unfold IKCPCB.ikcp_parse_data
  split
  case isTrue => exact ⟨h, hready⟩
  case isFalse hwindow =>
    obtain ⟨hend, hstart⟩ := not_or.mp hwindow
    have hahead := ahead_of_diff_nonneg (Int.not_lt.mp hstart)
    have hlt := ahead_lt_of_diff_neg (by omega) hahead (Int.not_le.mp hend)
    have hkeeps : (kcp.storeSeg seg).rcv_wnd = kcp.rcv_wnd := by
      unfold IKCPCB.storeSeg
      split <;> rfl
    exact moveAvailable hW _ (hkeeps ▸ hwnd) (hkeeps ▸ hpos) (h.storeSeg hW (by omega))

/-- A message is taken from the queue. -/
theorem dropMessage (h : kcp.receiving.Kept W) (ispeek : Bool) :
    (kcp.dropMessage ispeek).receiving.Kept W := by
  cases ispeek with
  | true => exact h
  | false =>
      have hlength := congrArg List.length (IKCPCB.splitMessage_append kcp.rcv_queue)
      rw [List.length_append] at hlength
      refine ⟨h.buf, ?_, h.ascending, h.below, ?_⟩
      · show kcp.nrcv_que - UInt32.ofNat (IKCPCB.splitMessage kcp.rcv_queue).1.length =
          UInt32.ofNat (IKCPCB.splitMessage kcp.rcv_queue).2.length
        rw [show kcp.nrcv_que = UInt32.ofNat kcp.rcv_queue.length from h.queue, ← hlength,
          UInt32.ofNat_add, UInt32.add_comm, UInt32.add_sub_cancel]
      · show (IKCPCB.splitMessage kcp.rcv_queue).2.length ≤ W
        have hroom : kcp.rcv_queue.length ≤ W := h.room
        omega

end Receiving.Kept

/-! ## Both halves -/

/-- A control block whose windows were never greater than `W`. -/
structure Bounded (W : Nat) (kcp : IKCPCB) : Prop where
  sending : kcp.sending.Kept W
  receiving : kcp.receiving.Kept W
  ready : kcp.receiving.Ready
  snd_wnd : kcp.snd_wnd.toNat ≤ W
  rcv_wnd : 128 ≤ kcp.rcv_wnd.toNat ∧ kcp.rcv_wnd.toNat ≤ W

namespace Bounded

theorem new (hW : 128 ≤ W) (conv : UInt32) : Bounded W (ikcp_create conv) where
  sending := ⟨rfl, rfl, rfl, .nil, fun _ h => absurd h List.not_mem_nil,
    (ahead_self (0 : UInt32)).trans_le (Nat.zero_le _)⟩
  receiving := ⟨rfl, rfl, .nil, fun _ h => absurd h List.not_mem_nil, Nat.zero_le _⟩
  ready _ seg hseg := by cases hseg
  snd_wnd := (show 32 ≤ 128 by decide).trans hW
  rcv_wnd := ⟨Nat.le_refl _, hW⟩

/-- The halves and the windows are all that matters. -/
theorem keep (h : Bounded W kcp) (hsettings : kcp'.settings = kcp.settings)
    (hsending : kcp'.sending.Kept W) (hreceiving : kcp'.receiving.Kept W ∧ kcp'.receiving.Ready) :
    Bounded W kcp' where
  sending := hsending
  receiving := hreceiving.1
  ready := hreceiving.2
  snd_wnd := by
    rw [show kcp'.snd_wnd = kcp.snd_wnd from congrArg Settings.snd_wnd hsettings]
    exact h.snd_wnd
  rcv_wnd := by
    rw [show kcp'.rcv_wnd = kcp.rcv_wnd from congrArg Settings.rcv_wnd hsettings]
    exact h.rcv_wnd

theorem keep_receiving (h : Bounded W kcp) (hsettings : kcp'.settings = kcp.settings)
    (hsending : kcp'.sending.Kept W) (hreceiving : kcp'.receiving = kcp.receiving) :
    Bounded W kcp' :=
  h.keep hsettings hsending (hreceiving ▸ ⟨h.receiving, h.ready⟩)

/-- A segment with data. -/
theorem push {s s' : Input} (h : Bounded W s.kcp) (hW : W < 2 ^ 31)
    (hpush : s.push seg = some s') : Bounded W s'.kcp := by
  obtain ⟨hsettings, hsending⟩ := Input.push_keeps hpush
  refine h.keep hsettings (hsending ▸ h.sending) ?_
  unfold Input.push at hpush
  split at hpush
  case isFalse =>
    cases hpush
    exact ⟨h.receiving, h.ready⟩
  case isTrue =>
    obtain ⟨pushed, hack, hrest⟩ := Option.bind_eq_some_iff.mp hpush
    obtain ⟨ackblock, hpushed⟩ := IKCPCB.ack_push_spec hack
    have hkept : Bounded W pushed := by
      rw [hpushed]
      exact ⟨h.sending, ⟨h.receiving.buf, h.receiving.queue, h.receiving.ascending,
        h.receiving.below, h.receiving.room⟩, h.ready, h.snd_wnd, h.rcv_wnd⟩
    cases hrest
    dsimp only
    split
    · obtain ⟨hlow, hhigh⟩ := hkept.rcv_wnd
      exact hkept.receiving.parse_data hkept.ready hW hhigh (by omega) seg
    · exact ⟨hkept.receiving, hkept.ready⟩

/-- **A segment that comes**, from whomever. -/
theorem segment {s s' : Input} (h : Bounded W s.kcp) (hW : W < 2 ^ 31)
    (hsegment : s.segment seg = some s') : Bounded W s'.kcp := by
  obtain ⟨hsettings, hreceiving, -⟩ := Input.header_keeps s seg
  have hwnd : ({ s.kcp with rmt_wnd := seg.wnd } : IKCPCB).sending.Kept W := h.sending
  have hheader : Bounded W (s.header seg).kcp :=
    h.keep_receiving hsettings (hwnd.parse_una seg.una) hreceiving
  rcases Input.segment_cases hsegment with ⟨-, hack⟩ | ⟨-, hpush⟩ | ⟨-, -, probe, rfl⟩
  · obtain ⟨measured, hsettings, hsending, hreceiving, heq⟩ := Input.ack_spec hack
    obtain ⟨hsettings', hreceiving', -⟩ := Input.parse_ack_keeps measured seg.sn
    rw [heq]
    exact hheader.keep_receiving (hsettings'.trans hsettings)
      (.parse_ack (hsending ▸ hheader.sending) seg.sn) (hreceiving'.trans hreceiving)
  · exact hheader.push hW hpush
  · exact hheader.keep_receiving rfl hheader.sending rfl

theorem settle {maxack : Option UInt32} {una : UInt32} (h : Bounded W kcp)
    (hsettle : kcp.settle maxack una = some kcp') : Bounded W kcp' := by
  obtain ⟨cwnd, incr, rfl | ⟨sn, rfl⟩⟩ := IKCPCB.settle_spec hsettle
  · exact h.keep_receiving rfl h.sending rfl
  · have hsn := congrArg (List.map fun k => k.2.2.1) (Sender.passOver_keys sn kcp.snd_buf)
    rw [List.map_map, List.map_map] at hsn
    exact h.keep_receiving rfl (h.sending.renumber hsn) rfl

/-- **Bytes that come**, whatever they are. -/
theorem input {data : List Byte} {ret : Int} (h : Bounded W kcp) (hW : W < 2 ^ 31)
    (hinput : kcp.ikcp_input data = some (kcp', ret)) : Bounded W kcp' :=
  IKCPCB.input_keeps (fun _ _ _ hs _ hsegment => hs.segment hW hsegment)
    (fun _ _ _ _ hk hsettle => hk.settle hsettle) h hinput

theorem flush {datagrams : List (List Byte)} (h : Bounded W kcp) (hW : W < 2 ^ 31)
    (hflush : kcp.ikcp_flush = some (kcp', datagrams)) : Bounded W kcp' := by
  by_cases hupdated : kcp.updated = 0
  · rw [IKCPCB.ikcp_flush, if_pos hupdated] at hflush
    cases hflush
    exact h
  · obtain ⟨head, wnd, segs, hsettings, hsending, -, hkeys, hsettings', hsending', hreceiving',
      -⟩ := IKCPCB.flush_spec hupdated hflush
    have hwindow : head.window.toNat ≤ W := by
      refine head.window_le.trans ?_
      rw [show head.snd_wnd = kcp.snd_wnd from congrArg Settings.snd_wnd hsettings]
      exact h.snd_wnd
    have hhead : Sending.Kept W { head.sending with snd_queue := head.snd_queue } :=
      show head.sending.Kept W from hsending ▸ h.sending
    have hmoved := Sending.Kept.moveToBuf hW hwindow wnd head.snd_queue hhead
    have hsn := congrArg (List.map fun k => k.2.2.1) hkeys
    rw [List.map_map, List.map_map] at hsn
    refine h.keep hsettings' (hsending' ▸ hmoved.renumber hsn) ?_
    rw [hreceiving']
    exact ⟨⟨h.receiving.buf, h.receiving.queue, h.receiving.ascending, h.receiving.below,
      h.receiving.room⟩, h.ready⟩

theorem update {datagrams : List (List Byte)} {current : UInt32} (h : Bounded W kcp)
    (hW : W < 2 ^ 31) (hupdate : kcp.ikcp_update current = some (kcp', datagrams)) :
    Bounded W kcp' := by
  obtain ⟨updated, ts_flush, -, hcases⟩ := IKCPCB.update_cases hupdate
  have hclock : Bounded W
      { kcp with current := current, updated := updated, ts_flush := ts_flush } :=
    h.keep_receiving rfl h.sending rfl
  rcases hcases with ⟨rfl, -⟩ | hflush
  · exact hclock
  · exact hclock.flush hW hflush

theorem enqueue (h : Bounded W kcp) (buffer : List Byte) (len : Int) :
    Bounded W (kcp.enqueue buffer len).1 := by
  unfold IKCPCB.enqueue
  extract_lets count positive segs
  split
  · exact h
  · have hkept := h.sending.requeue (kcp.snd_queue ++ segs)
    rw [List.length_append, UInt32.ofNat_add,
      ← show kcp.nsnd_que = UInt32.ofNat kcp.snd_queue.length from h.sending.queue] at hkept
    exact h.keep_receiving rfl hkept rfl

theorem fillLast (h : Bounded W kcp) (buffer : List Byte) (len : Int) :
    Bounded W (kcp.fillLast buffer len).1 := by
  unfold IKCPCB.fillLast
  split
  · exact h
  · rename_i old hlast
    split
    · extract_lets capacity extend seg
      have hkept := h.sending.requeue (kcp.snd_queue.dropLast ++ [seg])
      have hlength : (kcp.snd_queue.dropLast ++ [seg]).length = kcp.snd_queue.length := by
        have hsame := congrArg List.length (List.dropLast_append_getLast? old hlast)
        rwa [List.length_append] at hsame ⊢
      rw [hlength, ← show kcp.nsnd_que = UInt32.ofNat kcp.snd_queue.length from h.sending.queue]
        at hkept
      exact h.keep_receiving rfl hkept rfl
    · exact h

theorem send {buffer : List Byte} {len ret : Int} (h : Bounded W kcp)
    (hsend : kcp.ikcp_send buffer len = some (kcp', ret)) : Bounded W kcp' := by
  unfold IKCPCB.ikcp_send at hsend
  split at hsend
  · cases hsend
  · split at hsend
    · cases hsend
      exact h
    · split at hsend
      · dsimp only at hsend
        split at hsend
        · cases hsend
          exact h.fillLast buffer len
        · have hqueued := (h.fillLast buffer len).enqueue (kcp.fillLast buffer len).2.1
            (kcp.fillLast buffer len).2.2
          rwa [Option.some.inj hsend] at hqueued
      · have hqueued := h.enqueue buffer len
        rwa [Option.some.inj hsend] at hqueued

theorem recv {len ret : Int} {bytes : List Byte} (h : Bounded W kcp) (hW : W < 2 ^ 31)
    (hrecv : kcp.ikcp_recv len = some (kcp', ret, bytes)) : Bounded W kcp' := by
  obtain ⟨hsettings, hsending, -⟩ := IKCPCB.recv_keeps hrecv
  refine h.keep hsettings (hsending ▸ h.sending) ?_
  rcases IKCPCB.recv_spec hrecv with ⟨-, rfl, -⟩ | ⟨-, -, -, -, -, probe, rfl⟩
  · exact ⟨h.receiving, h.ready⟩
  · obtain ⟨hlow, hhigh⟩ := h.rcv_wnd
    have hwnd : (kcp.dropMessage (len < 0)).rcv_wnd = kcp.rcv_wnd :=
      congrArg Settings.rcv_wnd (IKCPCB.dropMessage_keeps kcp (len < 0)).1
    have hmoved := Receiving.Kept.moveAvailable hW (kcp.dropMessage (len < 0)).rcv_buf
      (hwnd ▸ hhigh) (by rw [hwnd]; omega) (h.receiving.dropMessage (len < 0))
    exact ⟨hmoved.1, hmoved.2⟩

theorem halves (h : Bounded W kcp) (hsending : kcp'.sending = kcp.sending)
    (hreceiving : kcp'.receiving = kcp.receiving) (hsnd : kcp'.snd_wnd.toNat ≤ W)
    (hrcv : 128 ≤ kcp'.rcv_wnd.toNat ∧ kcp'.rcv_wnd.toNat ≤ W) : Bounded W kcp' :=
  ⟨hsending ▸ h.sending, hreceiving ▸ h.receiving, hreceiving ▸ h.ready, hsnd, hrcv⟩

/-- The window to receive is never set to less than 128 segments. -/
theorem wndsize {sndwnd rcvwnd : Int} (h : Bounded W kcp) (hW : 128 ≤ W) (hlt : W < 2 ^ 31)
    (hsnd : sndwnd ≤ W) (hrcv : rcvwnd ≤ W) : Bounded W (kcp.ikcp_wndsize sndwnd rcvwnd) := by
  have htoNat : ∀ wnd : Int, 0 < wnd → wnd ≤ W → (UInt32.ofInt wnd).toNat ≤ W := by
    intro wnd hpos hle
    obtain ⟨n, rfl⟩ := Int.eq_ofNat_of_zero_le (Int.le_of_lt hpos)
    rw [ofInt_natCast, UInt32.toNat_ofNat', Nat.mod_eq_of_lt (by omega)]
    omega
  have hsame := IKCPCB.wndsize_same kcp sndwnd rcvwnd
  have hsndwnd : (kcp.ikcp_wndsize sndwnd rcvwnd).snd_wnd =
      if sndwnd > 0 then UInt32.ofInt sndwnd else kcp.snd_wnd := by
    unfold IKCPCB.ikcp_wndsize
    by_cases hs : sndwnd > 0 <;> by_cases hr : rcvwnd > 0 <;> simp [hs, hr]
  have hrcvwnd : (kcp.ikcp_wndsize sndwnd rcvwnd).rcv_wnd =
      if rcvwnd > 0 then max (UInt32.ofInt rcvwnd) IKCP_WND_RCV else kcp.rcv_wnd := by
    unfold IKCPCB.ikcp_wndsize
    by_cases hs : sndwnd > 0 <;> by_cases hr : rcvwnd > 0 <;> simp [hs, hr]
  refine h.halves hsame.sending hsame.receiving ?_ ?_
  · rw [hsndwnd]
    split
    · exact htoNat sndwnd ‹_› hsnd
    · exact h.snd_wnd
  · rw [hrcvwnd]
    split
    · have hle := htoNat rcvwnd ‹_› hrcv
      rw [IKCPCB.toNat_max, show IKCP_WND_RCV.toNat = 128 from rfl]
      omega
    · exact h.rcv_wnd

end Bounded

/-! ## Runs -/

/-- A call that sets no window to more than `W`. -/
def Call.Within (W : Nat) : Call → Prop
  | .wndsize sndwnd rcvwnd => sndwnd ≤ W ∧ rcvwnd ≤ W
  | _ => True

/-- One side to which anything may come: whenever it is called, it is made up what the other side
has sent. A call that is undefined leads to no state: bytes with which the estimate of the round
trip overflows, a flush past the end of the buffer. -/
def exposed (conv : UInt32) (W : Nat) : TSys Endpoint (List (List Byte) × Call) where
  init e := e = { kcp := ikcp_create conv }
  step e c e' := c.2.Ok (fun _ => True) ∧ c.2.Within W ∧ e.call c.1 c.2 = some e'

theorem Call.Ok.anyMode {modes : Int → Prop} {c : Call} (h : c.Ok modes) :
    c.Ok fun _ => True := by
  cases c with
  | stream on => trivial
  | _ => exact h

/-- An `int` is less than 2^31. -/
theorem Call.Ok.within {modes : Int → Prop} {c : Call} (h : c.Ok modes) :
    c.Within (2 ^ 31 - 1) := by
  cases c with
  | wndsize sndwnd rcvwnd => exact ⟨Int.le_sub_one_of_lt h.1.2, Int.le_sub_one_of_lt h.2.2⟩
  | _ => trivial

theorem Bounded.call {e e' : Endpoint} {sent : List (List Byte)} {c : Call}
    (h : Bounded W e.kcp) (hW : 128 ≤ W) (hlt : W < 2 ^ 31) (hwithin : c.Within W)
    (hcall : e.call sent c = some e') : Bounded W e'.kcp := by
  cases c with
  | send buffer =>
      obtain ⟨⟨kcp, ret⟩, hsend, heq⟩ := Option.bind_eq_some_iff.mp hcall
      cases heq
      exact h.send hsend
  | recv len =>
      obtain ⟨⟨kcp, ret, bytes⟩, hrecv, heq⟩ := Option.bind_eq_some_iff.mp hcall
      cases heq
      exact h.recv hlt hrecv
  | update current =>
      obtain ⟨⟨kcp, datagrams⟩, hupdate, heq⟩ := Option.bind_eq_some_iff.mp hcall
      cases heq
      exact h.update hlt hupdate
  | flush =>
      obtain ⟨⟨kcp, datagrams⟩, hflush, heq⟩ := Option.bind_eq_some_iff.mp hcall
      cases heq
      exact h.flush hlt hflush
  | input picks =>
      obtain ⟨⟨kcp, ret⟩, hinput, heq⟩ := Option.bind_eq_some_iff.mp hcall
      cases heq
      exact h.input hlt hinput
  | setmtu mtu =>
      cases hcall
      obtain ⟨hsending, hreceiving, -, -, hsnd, hrcv⟩ := IKCPCB.setmtu_keeps e.kcp mtu
      exact h.halves hsending hreceiving (hsnd ▸ h.snd_wnd) (hrcv ▸ h.rcv_wnd)
  | interval ms =>
      cases hcall
      exact h.halves rfl rfl h.snd_wnd h.rcv_wnd
  | nodelay on ms resend nc =>
      cases hcall
      have hsame := IKCPCB.nodelay_same e.kcp on ms resend nc
      obtain ⟨hsnd, hrcv⟩ := IKCPCB.nodelay_windows e.kcp on ms resend nc
      exact h.halves hsame.sending hsame.receiving (hsnd ▸ h.snd_wnd) (hrcv ▸ h.rcv_wnd)
  | wndsize sndwnd rcvwnd =>
      cases hcall
      exact h.wndsize hW hlt hwithin.1 hwithin.2
  | stream on =>
      cases hcall
      exact h.halves rfl rfl h.snd_wnd h.rcv_wnd

/-- **Whatever comes**, the windows bound the queues. -/
theorem bounded {conv : UInt32} (hW : 128 ≤ W) (hlt : W < 2 ^ 31) :
    (exposed conv W).Invariant fun e => Bounded W e.kcp := by
  apply TSys.Inductive.invariant
  constructor
  · rintro e rfl
    exact .new hW conv
  · rintro e c e' h ⟨-, hwithin, hcall⟩
    exact h.call hW hlt hwithin hcall

/-- The counters are the lengths, and both the lengths and the numbers in flight are at most `W`
if no window was set to more. -/
theorem queues_within_windows {conv : UInt32} {e : Endpoint} (h : (exposed conv W).Reachable e)
    (hW : 128 ≤ W) (hlt : W < 2 ^ 31) :
    e.kcp.nsnd_buf.toNat = e.kcp.snd_buf.length ∧ e.kcp.nrcv_buf.toNat = e.kcp.rcv_buf.length ∧
      e.kcp.nrcv_que.toNat = e.kcp.rcv_queue.length ∧ e.kcp.snd_buf.length ≤ W ∧
      e.kcp.rcv_buf.length ≤ W ∧ e.kcp.rcv_queue.length ≤ W ∧
      (e.kcp.snd_nxt - e.kcp.snd_una).toNat ≤ W := by
  have hbounded := bounded hW hlt e h
  have hcount : ∀ {l : List IKCPSEG} {n : UInt32}, n = UInt32.ofNat l.length → l.length ≤ W →
      n.toNat = l.length := by
    intro l n hn hle
    rw [hn, UInt32.toNat_ofNat', Nat.mod_eq_of_lt (by omega)]
  exact ⟨hcount hbounded.sending.buf hbounded.sending.length_le,
    hcount hbounded.receiving.buf hbounded.receiving.length_le,
    hcount hbounded.receiving.queue hbounded.receiving.room, hbounded.sending.length_le,
    hbounded.receiving.length_le, hbounded.receiving.room, hbounded.sending.flight⟩

/-- A segment that comes from nowhere, with a number that is not due. -/
def stray : List Byte :=
  IKCPSEG.bytes { conv := 7, cmd := IKCP_CMD_PUSH, wnd := 128, sn := 5, data := [1] }

theorem queues_within_windows_stray : ∃ e, (exposed 7 128).Reachable e ∧
    e.kcp.rcv_buf.length = 1 ∧ e.kcp.nrcv_buf.toNat = e.kcp.rcv_buf.length ∧
      e.kcp.rcv_queue.length ≤ 128 := by
  have hcall : (Endpoint.call { kcp := ikcp_create 7 } [stray] (.input [0])).map
      (fun e => e.kcp.rcv_buf.length) = some 1 := by
    decide
  obtain ⟨e, hcall, hlength⟩ := Option.map_eq_some_iff.mp hcall
  have hstep : (exposed 7 128).step { kcp := ikcp_create 7 } ([stray], .input [0]) e :=
    ⟨trivial, trivial, hcall⟩
  have hreach : (exposed 7 128).Reachable e := .step (.init rfl) hstep
  have hbounds := queues_within_windows hreach (by decide) (by decide)
  exact ⟨e, hreach, hlength, hbounds.2.1, hbounds.2.2.2.2.2.1⟩

/-- One side of a connection is one to which anything may come. -/
theorem exposed_of_connection {conv : UInt32} {modes : Int → Prop} {link : Link}
    (h : (connection conv modes).Reachable link) (side : Bool) :
    (exposed conv (2 ^ 31 - 1)).Reachable (link side) :=
  reachable_side (P := (exposed conv (2 ^ 31 - 1)).Reachable) (.init rfl)
    (fun he hok hcall => he.step (e := (_, _)) ⟨hok.anyMode, hok.within, hcall⟩) h side

end LearnSpace.Kcp
