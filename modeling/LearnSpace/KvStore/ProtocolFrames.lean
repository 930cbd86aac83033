import LearnSpace.KvStore.ProtocolChunks

/-!
# Frames that arrive together

What one call of `analysis` makes of a buffer that holds several frames and the front of one
more. Behind the first frame `data` stands at its body instead of the next header, since the
loop adds `currentPos`, a running total, to it and subtracts it from `size`. So the call is
right when it never gets to a second header (`framed_of_sound`). Every further frame makes
the parser look for its body so much further on that the tail has to be at least as long as
there are frames (`handed_bound`).
-/

namespace LearnSpace.KvStore

open Keel

variable {ε : Type} {g : Bytes → Except ε Unit} {mem : List Byte} {k k' : Cursor}
  {r : Analysis}

/-- A body behind its length in decimal and `"\r\n"`. -/
def encodeBody (body : List Byte) : List Byte := decimal body.length ++ crlf ++ body

/-- The frames of several bodies. -/
def encodeBodies (bodies : List (List Byte)) : List Byte := bodies.flatMap encodeBody

theorem length_encodeBody (body : List Byte) :
    (encodeBody body).length = (decimal body.length).length + 2 + body.length := by
  have hcrlf : crlf.length = 2 := rfl
  rw [encodeBody, List.length_append, List.length_append, hcrlf]

theorem encodeBodies_cons (body : List Byte) (bodies : List (List Byte)) :
    encodeBodies (body :: bodies) = encodeBody body ++ encodeBodies bodies :=
  List.flatMap_cons

theorem encodeBodies_singleton (body : List Byte) : encodeBodies [body] = encodeBody body := by
  simp [encodeBodies]

/-! ## What a run keeps -/

/-- `currentPos` only grows. -/
theorem iteration_currentPos (h : iteration mem g k = .ok (.inl k')) :
    k.currentPos ≤ k'.currentPos := by
  rw [iteration] at h
  split at h
  · cases h
  · cases hline : getLine (ε := ε) mem k.data k.size with
    | error e => simp [hline, bind, Except.bind] at h
    | ok line =>
        simp only [hline, bind, Except.bind, pure, Except.pure] at h
        repeat' split at h
        all_goals cases h
        dsimp only
        omega

theorem iteration_dissipativeSize (h : iteration mem g k = .ok (.inr r)) :
    k.currentPos ≤ r.dissipativeSize := by
  rw [iteration] at h
  split at h
  · cases h
    exact Nat.le_refl _
  · cases hline : getLine (ε := ε) mem k.data k.size with
    | error e => simp [hline, bind, Except.bind] at h
    | ok line =>
        simp only [hline, bind, Except.bind, pure, Except.pure] at h
        repeat' split at h
        all_goals cases h
        all_goals dsimp only
        all_goals omega

/-- A run hands on more commands and counts more bytes. -/
theorem run_grows (h : (analysisLoop mem g).run k = .ok r) :
    k.commands <+: r.commands ∧ k.currentPos ≤ r.dissipativeSize := by
  obtain ⟨t, hvisits, hdone⟩ := While.exists_leave h
  have ht : k.commands <+: t.commands ∧ k.currentPos ≤ t.currentPos := by
    refine hvisits.invariant (I := fun t => k.commands <+: t.commands ∧
      k.currentPos ≤ t.currentPos) ⟨List.prefix_refl _, Nat.le_refl _⟩ ?_
    intro t t' ht hbody
    exact ⟨ht.1.trans (iteration_next hbody).2.2, ht.2.trans (iteration_currentPos hbody)⟩
  rw [iteration_done hdone]
  exact ⟨ht.1, ht.2.trans (iteration_dissipativeSize hdone)⟩

/-! ## Numbers and the length of their lines -/

/-- As many digits as are read bound the number. -/
theorem digits_lt {s : List Byte} {n m : Nat} (h : digits s n = some m) :
    m < (n + 1) * 10 ^ s.countP isDigit := by
  induction s generalizing n with
  | nil => cases h
  | cons b s ih =>
      rw [digits] at h
      by_cases hdigit : isDigit b = true
      · rw [if_pos hdigit] at h
        have hlt := ih h
        have hb : b.toNat - 48 ≤ 9 := by
          unfold isDigit at hdigit
          simp only [Bool.and_eq_true, decide_eq_true_eq] at hdigit
          have hle : b.toNat ≤ 57 := hdigit.2
          omega
        rw [List.countP_cons_of_pos hdigit, Nat.pow_succ]
        calc m < (10 * n + (b.toNat - 48) + 1) * 10 ^ s.countP isDigit := hlt
          _ ≤ ((n + 1) * 10) * 10 ^ s.countP isDigit := by
              apply Nat.mul_le_mul_right
              omega
          _ = (n + 1) * (10 ^ s.countP isDigit * 10) := by
              rw [Nat.mul_assoc, Nat.mul_comm 10]
      · rw [if_neg hdigit] at h
        have heq : n = m := Option.some.inj h
        subst heq
        rw [List.countP_cons_of_neg hdigit]
        have hpos : 0 < 10 ^ s.countP isDigit := Nat.pow_pos (by decide)
        calc n < n + 1 := Nat.lt_succ_self n
          _ ≤ (n + 1) * 10 ^ s.countP isDigit := Nat.le_mul_of_pos_right _ hpos

/-- `strtol`, from the digits of the string. -/
theorem strtol_lt {s : List Byte} {v : Int} (h : strtol s = some v) :
    v.natAbs < 10 ^ s.countP isDigit := by
  have hsub := (List.dropWhile_sublist isSpace (l := s)).countP_le (p := isDigit)
  unfold strtol at h
  split at h
  · cases h
  · rename_i b s' hs
    rw [hs] at hsub
    -- the number without its sign
    have hle : ∀ {t : List Byte} {n : Nat}, t.countP isDigit ≤ (b :: s').countP isDigit →
        digits t 0 = some n → n < 10 ^ s.countP isDigit := by
      intro t n ht hn
      have hlt := digits_lt hn
      rw [Nat.zero_add, Nat.one_mul] at hlt
      exact Nat.lt_of_lt_of_le hlt (Nat.pow_le_pow_right (by decide) (ht.trans hsub))
    have htail : s'.countP isDigit ≤ (b :: s').countP isDigit :=
      (List.sublist_cons_self b s').countP_le
    split at h
    · obtain ⟨n, hn, hv⟩ := Option.map_eq_some_iff.mp h
      have hlt := hle htail hn
      omega
    · split at h
      · obtain ⟨n, hn, hv⟩ := Option.map_eq_some_iff.mp h
        have hlt := hle htail hn
        omega
      · obtain ⟨n, hn, hv⟩ := Option.map_eq_some_iff.mp h
        have hlt := hle (Nat.le_refl _) hn
        omega

/-- A line of `ℓ` bytes is read as an `int`, of at most `ℓ` digits. -/
theorem numberAt_bounds {msg : List Byte} {d ℓ : Nat} {len : Int} (hline : lineAt msg d = some ℓ)
    (h : numberAt msg d ℓ = some len) :
    -2 ^ 31 ≤ len ∧ len < 2 ^ 31 ∧ len.natAbs < 10 ^ ℓ := by
  obtain ⟨v, hv, hlen⟩ := Option.map_eq_some_iff.mp h
  have hsize := size_header hline
  have hdigits : (Bytes.new.append ((msg.drop d).take ℓ)).memory.countP isDigit ≤ ℓ := by
    rw [Bytes.memory_eq, List.countP_append]
    have hzeros : (List.replicate ((Bytes.new.append ((msg.drop d).take ℓ)).capacity -
        (Bytes.new.append ((msg.drop d).take ℓ)).size) (0 : Byte)).countP isDigit = 0 := by
      apply List.countP_eq_zero.mpr
      intro b hb
      rw [List.eq_of_mem_replicate hb]
      decide
    have hcontent : (Bytes.new.append ((msg.drop d).take ℓ)).content.countP isDigit ≤ ℓ :=
      List.countP_le_length.trans hsize.le
    omega
  have hpow : (10 : Nat) ^ (Bytes.new.append ((msg.drop d).take ℓ)).memory.countP isDigit ≤
      10 ^ ℓ := Nat.pow_le_pow_right (by decide) hdigits
  have hlt := strtol_lt hv
  have hmod : v.bmod (2 ^ 32) = len := hlen
  rw [Int.bmod_def] at hmod
  refine ⟨?_, ?_, ?_⟩ <;> split at hmod <;> omega

/-- A length read from a line of `ℓ` bytes is written in at most `ℓ + 1`. -/
theorem length_decimal_le {n ℓ : Nat} (h : n < 10 ^ ℓ) : (decimal n).length ≤ ℓ + 1 := by
  by_cases hn : n = 0
  · rw [decimal, if_pos hn]
    simp
  · rw [decimal, if_neg hn, List.length_map, List.length_reverse]
    have hle := (Nat.digits_length_le_iff (by decide : 1 < 10) n).mpr h
    omega

/-- Of the lengths below 2^62 an `int` reads those of at most 31 bits. -/
theorem length_eq_of_toSizeT {len : Int} {n : Nat} (hlow : -2 ^ 31 ≤ len) (hhigh : len < 2 ^ 31)
    (h : toSizeT len = n) (hn : n < 2 ^ 62) : n < 2 ^ 31 ∧ len.natAbs = n := by
  unfold toSizeT at h
  omega

/-- The digits of a length that is read from a line of `ℓ` bytes. -/
theorem length_header_le {msg : List Byte} {d ℓ n : Nat} {len : Int}
    (hline : lineAt msg d = some ℓ) (hnumber : numberAt msg d ℓ = some len)
    (hlen : toSizeT len = n) (hn : n < 2 ^ 62) : (decimal n).length ≤ ℓ + 1 := by
  obtain ⟨hlow, hhigh, hlt⟩ := numberAt_bounds hline hnumber
  apply length_decimal_le
  rwa [(length_eq_of_toSizeT hlow hhigh hlen hn).2] at hlt

/-! ## Commands that are handed on -/

variable {B : Bytes} {c d : Nat} {b : List Byte} {cs bs : List (List Byte)}

/-- A run that ends with more commands goes through another iteration. -/
theorem run_more (hrun : (analysisLoop mem g).run k = .ok r) (hmore : r.commands ≠ k.commands) :
    ∃ k', iteration mem g k = .ok (.inl k') ∧ (analysisLoop mem g).run k' = .ok r := by
  rcases While.run_ok hrun with hleave | hnext
  · exact absurd (iteration_done hleave) hmore
  · exact hnext

/-- When a run hands on a command more, the loop has found a header, with the length of the
command, and the command lies in the message; and from there it goes on. -/
theorem run_handed (hcapacity : B.capacity < 2 ^ 62) (hd : d ≤ B.content.length)
    (hrun : (analysisLoop B.memory g).run ⟨c, d, B.content.length - d, cs⟩ = .ok r)
    (hcs : r.commands = cs ++ b :: bs) :
    ∃ ℓ len, lineAt B.content d = some ℓ ∧ numberAt B.content d ℓ = some len ∧
      toSizeT len = b.length ∧ d + (c + (ℓ + 2)) + b.length ≤ B.content.length ∧
      (analysisLoop B.memory g).run ⟨c + (ℓ + 2) + b.length, d + (c + (ℓ + 2)),
        B.content.length - (d + (c + (ℓ + 2))), cs ++ [b]⟩ = .ok r := by
  have hmore : r.commands ≠ cs := by
    intro heq
    rw [heq] at hcs
    simpa using congrArg List.length hcs
  obtain ⟨k', hnext, hrun'⟩ := run_more hrun hmore
  rw [B.memory_eq] at hnext
  obtain ⟨hc, ℓ, len, command, hline, hnumber, hlen, hread, hk'⟩ := iteration_inv hnext
  by_cases hin : d + (c + (ℓ + 2)) ≤ B.content.length
  · have hsub : sub64 (B.content.length - d) (c + (ℓ + 2)) =
        B.content.length - (d + (c + (ℓ + 2))) := by
      rw [sub64, if_pos (by omega), Nat.sub_sub]
    rw [hsub] at hlen hk'
    rw [readCommand_eq hlen hin] at hread
    cases hread
    rw [hk'] at hrun'
    have hb : bodyAt B.content (d + (c + (ℓ + 2))) (toSizeT len) = b := by
      have hprefix := (run_grows hrun').1
      rw [hcs] at hprefix
      exact (List.cons_prefix_cons.mp ((List.prefix_append_right_inj cs).mp hprefix)).1
    have hlength : toSizeT len = b.length := by
      rw [← hb, bodyAt, List.length_take, List.length_drop]
      omega
    refine ⟨ℓ, len, hline, hnumber, hlength, by omega, ?_⟩
    rw [← hlength, ← hb]
    exact hrun'
  · have hcap : (B.content ++ List.replicate (B.capacity - B.size) 0).length < 2 ^ 62 := by
      rw [← B.memory_eq, B.length_memory]
      exact hcapacity
    have hwrap : B.content.length < k'.data := by
      rw [hk']
      exact Nat.lt_of_not_le hin
    rw [B.memory_eq, run_wrapped (cr_notMem_zeros _) hcap hnext hwrap] at hrun'
    cases hrun'

/-- What several more commands take: each of them as many bytes as its frame, but for one,
and a place that much further on for the next one. -/
theorem handed_bound (hcapacity : B.capacity < 2 ^ 62) (hd : d ≤ B.content.length)
    (hrun : (analysisLoop B.memory g).run ⟨c, d, B.content.length - d, cs⟩ = .ok r)
    (hcs : r.commands = cs ++ b :: bs) :
    d + c + (encodeBodies (b :: bs)).length + 2 * bs.length ≤
      B.content.length + (bs.length + 1) := by
  have hfits : B.content.length ≤ B.capacity := B.fits
  induction bs generalizing b c d cs with
  | nil =>
      obtain ⟨ℓ, len, hline, hnumber, hlen, hin, _⟩ := run_handed hcapacity hd hrun hcs
      have hheader := length_header_le hline hnumber hlen (by omega)
      rw [encodeBodies_cons, List.length_append, length_encodeBody]
      simp only [encodeBodies, List.flatMap_nil, List.length_nil]
      omega
  | cons b' bs ih =>
      obtain ⟨ℓ, len, hline, hnumber, hlen, hin, hrun'⟩ := run_handed hcapacity hd hrun hcs
      have hheader := length_header_le hline hnumber hlen (by omega)
      have hrest := ih (by omega) hrun' (by rw [hcs, List.append_assoc, List.singleton_append])
      rw [encodeBodies_cons, List.length_append, length_encodeBody, List.length_cons]
      omega

/-- A header that is found is counted, whatever comes of it. -/
theorem line_counted {ℓ : Nat} (hc : c < B.content.length - d)
    (hline : lineAt B.content d = some ℓ)
    (hrun : (analysisLoop B.memory g).run ⟨c, d, B.content.length - d, cs⟩ = .ok r) :
    c + (ℓ + 2) ≤ r.dissipativeSize := by
  have hiteration : iteration (B.content ++ List.replicate (B.capacity - B.size) 0) g
      ⟨c, d, B.content.length - d, cs⟩ = _ := iteration_line hc hline
  rw [← B.memory_eq, ← analysisLoop_body] at hiteration
  split at hiteration
  · rw [While.run_fault hiteration] at hrun
    cases hrun
  · split at hiteration
    · rw [While.run_leave hiteration] at hrun
      cases hrun
      exact Nat.le_refl _
    · split at hiteration
      · rw [While.run_fault hiteration] at hrun
        cases hrun
      · split at hiteration
        · rw [While.run_fault hiteration] at hrun
          cases hrun
        · rw [While.run_next hiteration] at hrun
          exact (Nat.le_add_right _ _).trans (run_grows hrun).2

/-! ## Frames and the front of one more -/

/-- The call hands on exactly the bodies, in order, and counts exactly their frames. -/
def Framed (g : Bytes → Except ε Unit) (B : Bytes) (bodies : List (List Byte)) : Prop :=
  analysis g B = .ok ⟨bodies, (encodeBodies bodies).length⟩

/-- There is no frame, and no header in the tail; or there is one, of a length that is an
`int`, and the tail is not longer than its header, or there is no line in its body and the
tail. -/
def FramesSound (tail : List Byte) : List (List Byte) → Prop
  | [] => lineAt tail 0 = none
  | [body] => body.length < 2 ^ 31 ∧
      (tail.length ≤ (decimal body.length).length + 2 ∨ lineAt (body ++ tail) 0 = none)
  | _ :: _ :: _ => False

variable {bodies : List (List Byte)} {body tail rest : List Byte}

/-- What is not counted stays in the receive buffer. -/
theorem Framed.tail_stays (h : Framed g B bodies) (hB : B.content = encodeBodies bodies ++ tail) :
    ∃ B', recvImp g B = .ok (B', bodies) ∧ B'.content = tail := by
  have hrun : analysis g B = .ok ⟨bodies, (encodeBodies bodies).length⟩ := h
  refine ⟨B.remove 0 (encodeBodies bodies).length (Nat.zero_le _), ?_, ?_⟩
  · simp only [recvImp, hrun, bind, Except.bind, pure, Except.pure]
  · show B.content.take 0 ++ B.content.drop (0 + (encodeBodies bodies).length) = tail
    rw [hB, List.take_zero, List.nil_append, Nat.zero_add, List.drop_left]

theorem lineAt_encodeBody (body rest : List Byte) :
    lineAt (encodeBody body ++ rest) 0 = some (decimal body.length).length := by
  rw [lineAt, List.drop_zero, encodeBody, List.append_assoc]
  exact firstOcc_append (cr_notMem_decimal _)

/-- Behind the header of the first frame there are its body and the rest. -/
theorem lineAt_body (hB : B.content = encodeBody body ++ rest) :
    lineAt B.content ((decimal body.length).length + 2) = lineAt (body ++ rest) 0 := by
  have hcrlf : crlf.length = 2 := rfl
  rw [lineAt, lineAt, hB, encodeBody, List.append_assoc, List.drop_zero,
    List.drop_left' (by rw [List.length_append, hcrlf])]

theorem framed_of_sound (hg : ∀ c, g c = .ok ()) (hB : B.content = encodeBodies bodies ++ tail)
    (hsound : FramesSound tail bodies) : Framed g B bodies := by
  rcases bodies with _ | ⟨body, _ | ⟨body', bodies⟩⟩
  · apply analysis_noLine
    rw [hB]
    exact hsound
  · obtain ⟨hint, hstop⟩ := hsound
    have hB' : B.content = encodeBody body ++ tail := by
      rw [hB, encodeBodies_singleton]
    have htotal : B.content.length = (encodeBody body).length + tail.length := by
      rw [hB', List.length_append]
    have hsize := length_encodeBody body
    have hframe : B.content = Frame.encode ⟨body, hint⟩ ++ tail := hB'
    have hrun := analysis_frame hg hframe
    rw [Framed, hrun]
    rw [encodeBodies_singleton]
    rcases hstop with hle | hline
    · apply While.run_leave
      exact if_pos (by
        show ¬ (encodeBody body).length < body.length + tail.length
        omega)
    · -- the second turn looks for a line behind the first header
      rw [← lineAt_body hB'] at hline
      have hleft : body.length + tail.length =
          B.content.length - ((decimal body.length).length + 2) := by omega
      rw [hleft]
      apply While.run_leave
      by_cases hc : (encodeBody body).length <
          B.content.length - ((decimal body.length).length + 2)
      · exact iteration_noLine hc hline
      · exact iteration_leave hc
  · exact hsound.elim

/-- The first body of several: where its frame ends, the run goes on. -/
theorem framed_first (hcapacity : B.capacity < 2 ^ 62)
    (hB : B.content = encodeBody body ++ rest)
    (hrun : analysis g B = .ok r) (hcs : r.commands = body :: bs) :
    body.length < 2 ^ 31 ∧
      (analysisLoop B.memory g).run ⟨(decimal body.length).length + 2 + body.length,
        (decimal body.length).length + 2,
        B.content.length - ((decimal body.length).length + 2), [body]⟩ = .ok r := by
  have hline := lineAt_encodeBody body rest
  rw [← hB] at hline
  have hstart : (analysisLoop B.memory g).run ⟨0, 0, B.content.length - 0, []⟩ = .ok r := hrun
  obtain ⟨ℓ, len, hline', hnumber, hlen, hin, hrun'⟩ :=
    run_handed hcapacity (Nat.zero_le B.content.length) hstart hcs
  have hℓ : (decimal body.length).length = ℓ := Option.some.inj (hline.symm.trans hline')
  have hfits : B.content.length ≤ B.capacity := B.fits
  obtain ⟨hlow, hhigh, _⟩ := numberAt_bounds hline' hnumber
  refine ⟨(length_eq_of_toSizeT hlow hhigh hlen (by omega)).1, ?_⟩
  rw [hℓ]
  simpa only [Nat.zero_add, List.nil_append] using hrun'

/-- A call that is right on at most one frame, or on more frames than the tail has bytes, is
one of those. -/
theorem sound_of_framed (hcapacity : B.capacity < 2 ^ 62)
    (hB : B.content = encodeBodies bodies ++ tail)
    (hfew : bodies.length ≤ 1 ∨ tail.length < bodies.length) (h : Framed g B bodies) :
    FramesSound tail bodies := by
  rcases bodies with _ | ⟨body, _ | ⟨body', bodies⟩⟩
  · show lineAt tail 0 = none
    have hB' : B.content = tail := hB
    cases hline : lineAt tail 0 with
    | none => rfl
    | some ℓ =>
        rw [← hB'] at hline
        have hle := lineAt_le hline
        have hcount := line_counted (c := 0) (d := 0) (by omega) hline h
        simp [encodeBodies] at hcount
  · have hB' : B.content = encodeBody body ++ tail := by
      rw [hB, encodeBodies_singleton]
    obtain ⟨hint, hrun⟩ := framed_first hcapacity hB' h rfl
    refine ⟨hint, ?_⟩
    by_contra hboth
    obtain ⟨hlong, hline⟩ := not_or.mp hboth
    obtain ⟨ℓ, hℓ⟩ := Option.ne_none_iff_exists'.mp hline
    rw [← lineAt_body hB'] at hℓ
    have htotal : B.content.length = (encodeBody body).length + tail.length := by
      rw [hB', List.length_append]
    have hsize := length_encodeBody body
    have hcount := line_counted (by omega) hℓ hrun
    have hcount' : (encodeBodies [body]).length = (encodeBody body).length := by
      rw [encodeBodies_singleton]
    simp only [hcount'] at hcount
    omega
  · exfalso
    have hB' : B.content = encodeBody body ++ (encodeBodies (body' :: bodies) ++ tail) := by
      rw [hB, encodeBodies_cons, List.append_assoc]
    have htotal : B.content.length =
        (encodeBody body).length + ((encodeBodies (body' :: bodies)).length + tail.length) := by
      rw [hB', List.length_append, List.length_append]
    have hsize := length_encodeBody body
    obtain ⟨_, hrun⟩ := framed_first hcapacity hB' h rfl
    have hbound := handed_bound hcapacity (by omega) hrun rfl
    have hdigits : 0 < (decimal body.length).length := by
      obtain ⟨ds, hds, hne, _⟩ := decimal_eq body.length
      rw [hds, List.length_map]
      exact List.length_pos_of_ne_nil hne
    simp only [List.length_cons] at hfew
    omega

/-- **Pipelined commands.** On a buffer of frames and a tail, with a `getCommand` that
returns, one call hands on the bodies and counts the frames when there is at most one frame
and it comes to no second header. On at most one frame, and on more frames than the tail has
bytes, it does so only then. -/
theorem framed_iff (hg : ∀ c, g c = .ok ()) (bodies : List (List Byte)) (tail : List Byte)
    (hB : B.content = encodeBodies bodies ++ tail) :
    (FramesSound tail bodies → Framed g B bodies) ∧
      (B.capacity < 2 ^ 62 → bodies.length ≤ 1 ∨ tail.length < bodies.length →
        Framed g B bodies → FramesSound tail bodies) :=
  ⟨framed_of_sound hg hB, fun hcapacity => sound_of_framed hcapacity hB⟩

/-- A `getCommand` that always returns. -/
def returning : Bytes → Except Fault Unit := fun _ => .ok ()

/-- The theorem at one frame, and the first digit of the next one: `"3\r\nGet5"`. -/
theorem framed_iff_one :
    Framed returning (Bytes.new.append [51, 13, 10, 71, 101, 116, 53]) [[71, 101, 116]] :=
  (framed_iff (B := Bytes.new.append [51, 13, 10, 71, 101, 116, 53]) (fun _ => rfl)
    [[71, 101, 116]] [53] (by decide +kernel)).1 ⟨by decide, .inl (by decide +kernel)⟩

/-- Of two frames `"3\r\nGet3\r\nGet"` the second one sends the parser out of the message,
and of the front `"3\r\nG"` of a frame the header is counted without its body. -/
theorem framed_breaks :
    analysis returning (Bytes.new.append
      (encodeBodies [[71, 101, 116], [71, 101, 116]] ++ [])) = .error .outside ∧
    ¬ Framed returning (Bytes.new.append
      (encodeBodies [[71, 101, 116], [71, 101, 116]] ++ [])) [[71, 101, 116], [71, 101, 116]] ∧
    analysis returning (Bytes.new.append (encodeBodies [] ++ [51, 13, 10, 71])) = .ok ⟨[], 3⟩ ∧
    ¬ Framed returning (Bytes.new.append (encodeBodies [] ++ [51, 13, 10, 71])) [] := by
  have htwo : analysis returning (Bytes.new.append
      (encodeBodies [[71, 101, 116], [71, 101, 116]] ++ [])) = .error .outside := by
    decide +kernel
  have hfront : analysis returning (Bytes.new.append (encodeBodies [] ++ [51, 13, 10, 71])) =
      .ok ⟨[], 3⟩ := by
    decide +kernel
  refine ⟨htwo, ?_, hfront, ?_⟩
  · intro h
    rw [Framed, htwo] at h
    cases h
  · intro h
    rw [Framed, hfront] at h
    cases h

end LearnSpace.KvStore
