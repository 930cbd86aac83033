import LearnSpace.ByteArrays.Capacity
import LearnSpace.Keel.Holders
import LearnSpace.Network.ByteArray

/-!
# The counters and the buffers

`Counted` is what counting by hand is for: each counter has the number of its variables,
the variables of a counter are those of a buffer, and nothing is freed that a variable has
and nothing kept that no variable has. `Sized` says of one variable that its lengths are
those of its buffer.

An assignment takes the counter of the other variable and leaves its own one as it was.
`append` and `insert` to a shared buffer make an own one, which keeps the counter of the
old one. So these break `Counted`, whatever the state. The other operations keep it, but
`append` and `insert` have to find room in the buffer: `creatMemory` copies as many bytes
as the new buffer is to have, and the old one has fewer.
-/

namespace LearnSpace.Network

open Keel Function
open KvStore (Byte Source strlen readAt writeAt)

/-! ## Copies -/

section Copies

variable {h h' : Heap (List Byte)} {p : Ptr} {d : List Byte} {src : Source} {off len : Nat}

/-- The bytes of a `const char*` are there. -/
def Readable (h : Heap (List Byte)) : Source → Nat → Prop
  | .bytes b, len => len ≤ b.length
  | .buffer p off, len => ∃ b, h.cell p = some b ∧ off + len ≤ b.length

theorem Readable.read (hr : Readable h src len) :
    ∃ bytes, src.read h len = some bytes ∧ bytes.length = len := by
  cases src with
  | bytes b =>
      have hfits : 0 + len ≤ b.length := by
        rw [Nat.zero_add]
        exact hr
      exact ⟨_, Buffer.slice_eq hfits, Buffer.length_slice (Buffer.slice_eq hfits)⟩
  | buffer p off =>
      obtain ⟨b, hcell, hfits⟩ := hr
      exact ByteArrays.readAt_length off len hcell hfits

theorem read_some {bytes : List Byte} (hlen : len ≠ 0) (hread : src.read h len = some bytes) :
    Readable h src len ∧ bytes.length = len := by
  cases src with
  | bytes b =>
      have hread' : Buffer.slice b 0 len = some bytes := hread
      refine ⟨?_, Buffer.length_slice hread'⟩
      rw [Buffer.slice] at hread'
      split at hread'
      · rename_i hfits
        rwa [Nat.zero_add] at hfits
      · cases hread'
  | buffer p off =>
      have hread' : readAt h p off len = some bytes := hread
      rw [readAt, if_neg hlen, Option.bind_eq_bind, Option.bind_eq_some_iff] at hread'
      obtain ⟨b, hcell, hslice⟩ := hread'
      refine ⟨⟨b, hcell, ?_⟩, Buffer.length_slice hslice⟩
      rw [Buffer.slice] at hslice
      split at hslice
      · assumption
      · cases hslice

/-- A copy into a live buffer, inside of it. -/
theorem memcpy_inside (off : Nat) (hr : Readable h src len) (hcell : h.cell p = some d)
    (hfits : off + len ≤ d.length) :
    ∃ h' d', memcpy h p off src len = some h' ∧ d'.length = d.length ∧
      h'.cell = update h.cell p (some d') := by
  obtain ⟨bytes, hread, hlength⟩ := hr.read
  obtain ⟨h', d', hwrite, hd', hcell'⟩ :=
    ByteArrays.writeAt_inside off bytes hcell (by omega)
  refine ⟨h', d', ?_, hd', hcell'⟩
  rw [memcpy, hread, Option.bind_eq_bind, Option.bind_some, hwrite]

/-- A copy that is defined reads bytes that are there and writes inside a live buffer. -/
theorem memcpy_some (hlen : len ≠ 0) (hcopy : memcpy h p off src len = some h') :
    Readable h src len ∧ ∃ d d', h.cell p = some d ∧ off + len ≤ d.length ∧
      d'.length = d.length ∧ h'.cell = update h.cell p (some d') := by
  rw [memcpy, Option.bind_eq_bind, Option.bind_eq_some_iff] at hcopy
  obtain ⟨bytes, hread, hwrite⟩ := hcopy
  obtain ⟨hr, hlength⟩ := read_some hlen hread
  refine ⟨hr, ?_⟩
  cases hcell : h.cell p with
  | none =>
      have hne : bytes ≠ [] := by
        rintro rfl
        exact hlen hlength.symm
      rw [writeAt, if_neg hne, Heap.load, hcell] at hwrite
      cases hwrite
  | some d =>
      have hne : bytes ≠ [] := by
        rintro rfl
        exact hlen hlength.symm
      have hfits := (ByteArrays.writeAt_some hcell hwrite).1 hne
      obtain ⟨h'', d', hwrite', hd', hcell'⟩ := ByteArrays.writeAt_inside off bytes hcell hfits
      rw [hwrite, Option.some_inj] at hwrite'
      subst hwrite'
      exact ⟨d, d', rfl, by omega, hd', hcell'⟩

end Copies

/-! ## What the counters are for -/

variable {ι : Type} [Fintype ι] [DecidableEq ι] {σ σ' : State ι} {x y : ι}
  {b c : CMByteArray} {p : Ptr}

/-- The counter of a variable. -/
def State.counterOf (σ : State ι) (x : ι) : Option Ptr := (σ.var x).map CMByteArray.useCount

/-- The buffer of a variable. -/
def State.bufferOf (σ : State ι) (x : ι) : Option Ptr := (σ.var x).map CMByteArray.buffer

/-- Each counter has the number of its variables, and the variables that share a counter
are those that share a buffer. The counters and buffers that are live are those of the
variables. -/
structure Counted (σ : State ι) : Prop where
  counts : ∀ p n, σ.counters.cell p = some n → 0 < n ∧ n = (holders σ.counterOf p : Int)
  counter : ∀ x b, σ.var x = some b → σ.counters.cell b.useCount ≠ none
  buffer : ∀ x b, σ.var x = some b → b.buffer ≠ null → σ.buffers.cell b.buffer ≠ none
  held : ∀ p, σ.buffers.cell p ≠ none → ∃ x b, σ.var x = some b ∧ b.buffer = p
  together : ∀ x y b c, σ.var x = some b → σ.var y = some c →
    (b.useCount = c.useCount → b.buffer = c.buffer) ∧
      (b.buffer ≠ null → b.buffer = c.buffer → b.useCount = c.useCount)

omit [DecidableEq ι] in
/-- The counter of a buffer has the number of the variables whose buffer it is. -/
theorem Counted.counts_holders (h : Counted σ) (hx : σ.var x = some b)
    (hbuffer : b.buffer ≠ null) :
    σ.counters.cell b.useCount = some (holders σ.bufferOf b.buffer : Int) := by
  obtain ⟨n, hn⟩ := Option.ne_none_iff_exists'.mp (h.counter x b hx)
  have hsame : holders σ.counterOf b.useCount = holders σ.bufferOf b.buffer := by
    rw [holders, holders]
    congr 1
    apply Finset.filter_congr
    intro y _
    rw [State.counterOf, State.bufferOf]
    cases hy : σ.var y with
    | none => simp
    | some c =>
        rw [Option.map_some, Option.map_some, Option.some_inj, Option.some_inj]
        obtain ⟨hto, hfrom⟩ := h.together x y b c hx hy
        exact ⟨fun he => (hto he.symm).symm, fun he => (hfrom hbuffer he.symm).symm⟩
  rw [hn, (h.counts _ n hn).2, hsame]

/-- The lengths of a variable are those of its buffer. -/
structure Sized (σ : State ι) (b : CMByteArray) : Prop where
  fits : b.size ≤ b.bufferLen
  small : b.bufferLen < uintSize
  buffer : (b.buffer = null ∧ b.bufferLen = 0) ∨
    ∃ bytes, σ.buffers.cell b.buffer = some bytes ∧ bytes.length = b.bufferLen

/-- The counters are right and the lengths are. -/
structure Good (σ : State ι) : Prop where
  counted : Counted σ
  sized : ∀ x b, σ.var x = some b → Sized σ b

/-! ## One variable changes -/

omit [Fintype ι] in
theorem counterOf_update {v : Option CMByteArray} (hvar : σ'.var = update σ.var x v) :
    σ'.counterOf = update σ.counterOf x (v.map CMByteArray.useCount) := by
  funext y
  rw [State.counterOf, hvar]
  by_cases hy : y = x
  · rw [hy, update_self, update_self]
  · rw [update_of_ne hy, update_of_ne hy]
    rfl

theorem holders_counterOf {v : Option CMByteArray} (hvar : σ'.var = update σ.var x v) (p : Ptr) :
    holders σ'.counterOf p + (if σ.counterOf x = some p then 1 else 0) =
      holders σ.counterOf p + if v.map CMByteArray.useCount = some p then 1 else 0 := by
  rw [counterOf_update hvar]
  exact holders_update σ.counterOf x _ p

omit [Fintype ι] [DecidableEq ι] in
theorem counterOf_some (hx : σ.var x = some b) : σ.counterOf x = some b.useCount := by
  rw [State.counterOf, hx, Option.map_some]

omit [Fintype ι] [DecidableEq ι] in
theorem counterOf_none (hx : σ.var x = none) : σ.counterOf x = none := by
  rw [State.counterOf, hx, Option.map_none]

omit [Fintype ι] in
/-- The variables behind a change of one. -/
theorem var_update (hvar : σ'.var = update σ.var x (some b)) (hy : σ'.var y = some c) :
    (y = x ∧ c = b) ∨ (y ≠ x ∧ σ.var y = some c) := by
  rw [hvar] at hy
  by_cases hyx : y = x
  · rw [hyx, update_self, Option.some_inj] at hy
    exact .inl ⟨hyx, hy.symm⟩
  · rw [update_of_ne hyx] at hy
    exact .inr ⟨hyx, hy⟩

omit [Fintype ι] in
theorem var_remove (hvar : σ'.var = update σ.var x none) (hy : σ'.var y = some c) :
    y ≠ x ∧ σ.var y = some c := by
  rw [hvar] at hy
  by_cases hyx : y = x
  · rw [hyx, update_self] at hy
    cases hy
  · rw [update_of_ne hyx] at hy
    exact ⟨hyx, hy⟩

omit [Fintype ι] in
/-- A variable that comes leaves the others as they were. -/
theorem var_keep (hx : σ.var x = none) (hvar : σ'.var = update σ.var x (some b))
    (hy : σ.var y = some c) : σ'.var y = some c := by
  have hyx : y ≠ x := by
    rintro rfl
    rw [hx] at hy
    cases hy
  rw [hvar, update_of_ne hyx, hy]

/-- The counter of a variable that comes gains it. -/
theorem holders_gain (hx : σ.var x = none) (hvar : σ'.var = update σ.var x (some b)) :
    holders σ'.counterOf b.useCount = holders σ.counterOf b.useCount + 1 := by
  have hholders := holders_counterOf hvar b.useCount
  rwa [counterOf_none hx, if_neg (Option.some_ne_none _).symm, Option.map_some, if_pos rfl]
    at hholders

/-- The counter of a variable that goes loses it. -/
theorem holders_lose (hx : σ.var x = some b) (hvar : σ'.var = update σ.var x none) :
    holders σ'.counterOf b.useCount + 1 = holders σ.counterOf b.useCount := by
  have hholders := holders_counterOf hvar b.useCount
  rwa [counterOf_some hx, if_pos rfl, Option.map_none, if_neg (Option.some_ne_none _).symm]
    at hholders

omit [Fintype ι] [DecidableEq ι] in
/-- No other counter gains it. -/
theorem others_gain (hx : σ.var x = none) (hp : p ≠ b.useCount) :
    σ.counterOf x = some p ↔ (some b).map CMByteArray.useCount = some p := by
  rw [counterOf_none hx, Option.map_some, Option.some_inj]
  exact iff_of_false (Option.some_ne_none p).symm (Ne.symm hp)

omit [Fintype ι] [DecidableEq ι] in
/-- And no other one loses it. -/
theorem others_lose (hx : σ.var x = some b) (hp : p ≠ b.useCount) :
    σ.counterOf x = some p ↔ (none : Option CMByteArray).map CMByteArray.useCount = some p := by
  rw [counterOf_some hx, Option.map_none, Option.some_inj]
  exact iff_of_false (Ne.symm hp) (Option.some_ne_none p).symm

/-- The counts when one variable changes and with it one counter: that counter is right,
and no other one loses or gains a variable. -/
theorem Counted.counts_update (h : Counted σ) {v : Option CMByteArray}
    (hvar : σ'.var = update σ.var x v) {q : Ptr} {m : Option Int}
    (hcounters : σ'.counters.cell = update σ.counters.cell q m)
    (hothers : ∀ p, p ≠ q → (σ.counterOf x = some p ↔ v.map CMByteArray.useCount = some p))
    (hself : ∀ n, m = some n → 0 < n ∧ n = (holders σ'.counterOf q : Int)) (p : Ptr) (n : Int)
    (hn : σ'.counters.cell p = some n) : 0 < n ∧ n = (holders σ'.counterOf p : Int) := by
  by_cases hp : p = q
  · subst hp
    rw [hcounters, update_self] at hn
    exact hself n hn
  · have hholders := holders_counterOf hvar p
    rw [hcounters, update_of_ne hp] at hn
    rw [if_congr (hothers p hp) rfl rfl, Nat.add_right_cancel_iff] at hholders
    rw [hholders]
    exact h.counts p n hn

omit [Fintype ι] [DecidableEq ι] in
/-- The lengths of a variable whose buffer kept its length. -/
theorem Sized.frame (h : Sized σ b)
    (hcell : b.buffer ≠ null → ∀ d, σ.buffers.cell b.buffer = some d →
      ∃ d', σ'.buffers.cell b.buffer = some d' ∧ d'.length = d.length) : Sized σ' b := by
  refine ⟨h.fits, h.small, ?_⟩
  rcases h.buffer with hnull | ⟨d, hd, hlength⟩
  · exact .inl hnull
  · obtain ⟨d', hd', hlength'⟩ := hcell (σ.buffers.ne_null hd) d hd
    exact .inr ⟨d', hd', hlength'.trans hlength⟩

namespace Good

omit [DecidableEq ι] in
theorem counter_live (h : Good σ) (hx : σ.var x = some b) :
    ∃ n, σ.counters.cell b.useCount = some n ∧ 0 < n ∧
      n = (holders σ.counterOf b.useCount : Int) := by
  obtain ⟨n, hn⟩ := Option.ne_none_iff_exists'.mp (h.counted.counter x b hx)
  exact ⟨n, hn, h.counted.counts _ n hn⟩

/-- A variable with a counter of its own, and a buffer of its own or none. -/
theorem add (h : Good σ) (hx : σ.var x = none) (hvar : σ'.var = update σ.var x (some b))
    (hfresh : σ.counters.cell b.useCount = none)
    (hcounters : σ'.counters.cell = update σ.counters.cell b.useCount (some 1))
    (hbuffers : (b.buffer = null ∧ σ'.buffers.cell = σ.buffers.cell) ∨
      ∃ d, b.buffer ≠ null ∧ σ.buffers.cell b.buffer = none ∧
        σ'.buffers.cell = update σ.buffers.cell b.buffer (some d))
    (hsized : Sized σ' b) : Good σ' := by
  have hcounter (y : ι) (c : CMByteArray) (hy : σ.var y = some c) : c.useCount ≠ b.useCount := by
    intro he
    apply h.counted.counter y c hy
    rw [he, hfresh]
  -- a buffer that is new, or null, is no other variable's
  have hbuffer (y : ι) (c : CMByteArray) (hy : σ.var y = some c) (hc : c.buffer ≠ null) :
      c.buffer ≠ b.buffer := by
    intro he
    rcases hbuffers with ⟨hnull, -⟩ | ⟨d, -, hnone, -⟩
    · exact hc (he.trans hnull)
    · apply h.counted.buffer y c hy hc
      rw [he, hnone]
  have hcell (p : Ptr) (hp : p ≠ b.buffer) : σ'.buffers.cell p = σ.buffers.cell p := by
    rcases hbuffers with ⟨-, hsame⟩ | ⟨d, -, -, hupdate⟩
    · rw [hsame]
    · rw [hupdate, update_of_ne hp]
  refine ⟨⟨?_, ?_, ?_, ?_, ?_⟩, ?_⟩
  · apply h.counted.counts_update hvar hcounters
    · exact fun _ hp => others_gain hx hp
    · rintro n hn
      have hzero : holders σ.counterOf b.useCount = 0 := by
        apply holders_eq_zero
        intro y hy
        obtain ⟨c, hc, he⟩ := Option.map_eq_some_iff.mp hy
        exact hcounter y c hc he
      have hholders := holders_gain hx hvar
      cases hn
      omega
  · intro y c hy
    rcases var_update hvar hy with ⟨-, rfl⟩ | ⟨-, hy⟩
    · rw [hcounters, update_self]
      exact Option.some_ne_none 1
    · rw [hcounters, update_of_ne (hcounter y c hy)]
      exact h.counted.counter y c hy
  · intro y c hy hc
    rcases var_update hvar hy with ⟨-, rfl⟩ | ⟨-, hy⟩
    · rcases hbuffers with ⟨hnull, -⟩ | ⟨d, -, -, hupdate⟩
      · exact absurd hnull hc
      · rw [hupdate, update_self]
        exact Option.some_ne_none d
    · rw [hcell _ (hbuffer y c hy hc)]
      exact h.counted.buffer y c hy hc
  · intro p hp
    by_cases hpb : p = b.buffer
    · refine ⟨x, b, ?_, hpb.symm⟩
      rw [hvar, update_self]
    · rw [hcell p hpb] at hp
      obtain ⟨y, c, hy, hc⟩ := h.counted.held p hp
      exact ⟨y, c, var_keep hx hvar hy, hc⟩
  · intro y z c d hy hz
    rcases var_update hvar hy with ⟨-, rfl⟩ | ⟨-, hy⟩
    · rcases var_update hvar hz with ⟨-, rfl⟩ | ⟨-, hz⟩
      · exact ⟨fun _ => rfl, fun _ _ => rfl⟩
      · refine ⟨fun he => absurd he.symm (hcounter z d hz), fun hne he => ?_⟩
        exact absurd he.symm (hbuffer z d hz (fun hd => hne (he.trans hd)))
    · rcases var_update hvar hz with ⟨-, rfl⟩ | ⟨-, hz⟩
      · exact ⟨fun he => absurd he (hcounter y c hy),
          fun hne he => absurd he (hbuffer y c hy hne)⟩
      · exact h.counted.together y z c d hy hz
  · intro y c hy
    rcases var_update hvar hy with ⟨-, rfl⟩ | ⟨-, hy⟩
    · exact hsized
    · apply (h.sized y c hy).frame
      intro hc d hd
      exact ⟨d, by rw [hcell _ (hbuffer y c hy hc), hd], rfl⟩

/-- A variable that takes part in another one's counter and buffer. -/
theorem join (h : Good σ) (hx : σ.var x = none) (hy : σ.var y = some c)
    (hvar : σ'.var = update σ.var x (some c)) {n : Int}
    (hn : σ.counters.cell c.useCount = some n)
    (hcounters : σ'.counters.cell = update σ.counters.cell c.useCount (some (n + 1)))
    (hbuffers : σ'.buffers = σ.buffers) : Good σ' := by
  -- what `x` has now, `y` had before
  have hcounter (z : ι) (d : CMByteArray) (hz : σ'.var z = some d) :
      ∃ w, σ.var w = some d := by
    rcases var_update hvar hz with ⟨-, rfl⟩ | ⟨-, hz⟩
    · exact ⟨y, hy⟩
    · exact ⟨z, hz⟩
  refine ⟨⟨?_, ?_, ?_, ?_, ?_⟩, ?_⟩
  · apply h.counted.counts_update hvar hcounters
    · exact fun _ hp => others_gain hx hp
    · intro m hm
      have hcount := h.counted.counts c.useCount n hn
      have hholders := holders_gain hx hvar
      cases hm
      omega
  · intro z d hz
    obtain ⟨w, hw⟩ := hcounter z d hz
    rw [hcounters]
    by_cases hd : d.useCount = c.useCount
    · rw [hd, update_self]
      exact Option.some_ne_none _
    · rw [update_of_ne hd]
      exact h.counted.counter w d hw
  · intro z d hz hd
    obtain ⟨w, hw⟩ := hcounter z d hz
    rw [hbuffers]
    exact h.counted.buffer w d hw hd
  · intro p hp
    rw [hbuffers] at hp
    obtain ⟨z, d, hz, hd⟩ := h.counted.held p hp
    exact ⟨z, d, var_keep hx hvar hz, hd⟩
  · intro z w d e hz hw
    obtain ⟨z', hz'⟩ := hcounter z d hz
    obtain ⟨w', hw'⟩ := hcounter w e hw
    exact h.counted.together z' w' d e hz' hw'
  · intro z d hz
    obtain ⟨w, hw⟩ := hcounter z d hz
    apply (h.sized w d hw).frame
    intro _ a ha
    exact ⟨a, by rw [hbuffers, ha], rfl⟩

/-- A variable that goes while others still share its counter. -/
theorem leave (h : Good σ) (hx : σ.var x = some b) (hvar : σ'.var = update σ.var x none)
    {n : Int} (hn : σ.counters.cell b.useCount = some n) (hmany : n ≠ 1)
    (hcounters : σ'.counters.cell = update σ.counters.cell b.useCount (some (n - 1)))
    (hbuffers : σ'.buffers = σ.buffers) : Good σ' := by
  have hcount := h.counted.counts b.useCount n hn
  refine ⟨⟨?_, ?_, ?_, ?_, ?_⟩, ?_⟩
  · apply h.counted.counts_update hvar hcounters
    · exact fun _ hp => others_lose hx hp
    · intro m hm
      have hholders := holders_lose hx hvar
      cases hm
      omega
  · intro z d hz
    obtain ⟨-, hz⟩ := var_remove hvar hz
    rw [hcounters]
    by_cases hd : d.useCount = b.useCount
    · rw [hd, update_self]
      exact Option.some_ne_none _
    · rw [update_of_ne hd]
      exact h.counted.counter z d hz
  · intro z d hz hd
    obtain ⟨-, hz⟩ := var_remove hvar hz
    rw [hbuffers]
    exact h.counted.buffer z d hz hd
  · intro p hp
    rw [hbuffers] at hp
    obtain ⟨z, d, hz, hd⟩ := h.counted.held p hp
    by_cases hzx : z = x
    · -- another variable of the counter has the buffer, too
      subst hzx
      rw [hx, Option.some_inj] at hz
      subst hz
      obtain ⟨w, hwz, hw⟩ := exists_other (f := σ.counterOf) (k := b.useCount) (by omega) z
      obtain ⟨e, he, hcounter⟩ := Option.map_eq_some_iff.mp hw
      refine ⟨w, e, by rw [hvar, update_of_ne hwz, he], ?_⟩
      rw [← hd]
      exact (h.counted.together w z e b he hx).1 hcounter
    · exact ⟨z, d, by rw [hvar, update_of_ne hzx, hz], hd⟩
  · intro z w d e hz hw
    exact h.counted.together z w d e (var_remove hvar hz).2 (var_remove hvar hw).2
  · intro z d hz
    apply (h.sized z d (var_remove hvar hz).2).frame
    intro _ a ha
    exact ⟨a, by rw [hbuffers, ha], rfl⟩

/-- The last variable of a counter goes, and with it the counter and the buffer. -/
theorem leave_last (h : Good σ) (hx : σ.var x = some b) (hvar : σ'.var = update σ.var x none)
    (hone : σ.counters.cell b.useCount = some 1)
    (hcounters : σ'.counters.cell = update σ.counters.cell b.useCount none)
    (hbuffers : σ'.buffers.cell = update σ.buffers.cell b.buffer none) : Good σ' := by
  have hcount := h.counted.counts b.useCount 1 hone
  -- nobody else has the counter, and so nobody else has the buffer
  have hcounter (z : ι) (d : CMByteArray) (hz : σ'.var z = some d) :
      σ.var z = some d ∧ d.useCount ≠ b.useCount ∧ (d.buffer ≠ null → d.buffer ≠ b.buffer) := by
    obtain ⟨hzx, hz⟩ := var_remove hvar hz
    have hne : d.useCount ≠ b.useCount := by
      intro he
      apply hzx
      apply holders_le_one (f := σ.counterOf) (k := b.useCount) (by omega)
      · rw [counterOf_some hz, he]
      · exact counterOf_some hx
    exact ⟨hz, hne, fun hd he => hne ((h.counted.together z x d b hz hx).2 hd he)⟩
  refine ⟨⟨?_, ?_, ?_, ?_, ?_⟩, ?_⟩
  · apply h.counted.counts_update hvar hcounters
    · exact fun _ hp => others_lose hx hp
    · exact nofun
  · intro z d hz
    obtain ⟨hz, hne, -⟩ := hcounter z d hz
    rw [hcounters, update_of_ne hne]
    exact h.counted.counter z d hz
  · intro z d hz hd
    obtain ⟨hz, -, hne⟩ := hcounter z d hz
    rw [hbuffers, update_of_ne (hne hd)]
    exact h.counted.buffer z d hz hd
  · intro p hp
    have hpb : p ≠ b.buffer := by
      rintro rfl
      rw [hbuffers, update_self] at hp
      exact hp rfl
    rw [hbuffers, update_of_ne hpb] at hp
    obtain ⟨z, d, hz, hd⟩ := h.counted.held p hp
    have hzx : z ≠ x := by
      rintro rfl
      rw [hx, Option.some_inj] at hz
      subst hz
      exact hpb hd.symm
    exact ⟨z, d, by rw [hvar, update_of_ne hzx, hz], hd⟩
  · intro z w d e hz hw
    exact h.counted.together z w d e (hcounter z d hz).1 (hcounter w e hw).1
  · intro z d hz
    obtain ⟨hz, -, hne⟩ := hcounter z d hz
    apply (h.sized z d hz).frame
    intro hd a ha
    exact ⟨a, by rw [hbuffers, update_of_ne (hne hd), ha], rfl⟩

/-- Bytes are written into the buffer of a variable, and its size changes. -/
theorem write (h : Good σ) (hx : σ.var x = some b) {size : Nat} {d d' : List Byte}
    (hvar : σ'.var = update σ.var x (some { b with size := size }))
    (hcounters : σ'.counters = σ.counters) (hcell : σ.buffers.cell b.buffer = some d)
    (hlength : d'.length = d.length)
    (hbuffers : σ'.buffers.cell = update σ.buffers.cell b.buffer (some d'))
    (hfits : size ≤ b.bufferLen) : Good σ' := by
  have hsame : σ'.counterOf = σ.counterOf := by
    rw [counterOf_update hvar, update_eq_self_iff]
    exact (counterOf_some hx).symm
  have hvars (z : ι) (e : CMByteArray) (hz : σ'.var z = some e) :
      ∃ e', σ.var z = some e' ∧ e.useCount = e'.useCount ∧ e.buffer = e'.buffer := by
    rcases var_update hvar hz with ⟨rfl, rfl⟩ | ⟨-, hz⟩
    · exact ⟨b, hx, rfl, rfl⟩
    · exact ⟨e, hz, rfl, rfl⟩
  have hlive (p : Ptr) (a : List Byte) (ha : σ.buffers.cell p = some a) :
      ∃ a', σ'.buffers.cell p = some a' ∧ a'.length = a.length := by
    rw [hbuffers]
    by_cases hp : p = b.buffer
    · rw [hp, hcell, Option.some_inj] at ha
      subst ha
      exact ⟨d', by rw [hp, update_self], hlength⟩
    · exact ⟨a, by rw [update_of_ne hp, ha], rfl⟩
  refine ⟨⟨?_, ?_, ?_, ?_, ?_⟩, ?_⟩
  · intro p n hn
    rw [hcounters] at hn
    rw [hsame]
    exact h.counted.counts p n hn
  · intro z e hz
    obtain ⟨e', hz', hcount, -⟩ := hvars z e hz
    rw [hcounters, hcount]
    exact h.counted.counter z e' hz'
  · intro z e hz he
    obtain ⟨e', hz', -, hbuffer⟩ := hvars z e hz
    rw [hbuffer] at he ⊢
    obtain ⟨a, ha⟩ := Option.ne_none_iff_exists'.mp (h.counted.buffer z e' hz' he)
    obtain ⟨a', ha', -⟩ := hlive _ a ha
    rw [ha']
    exact Option.some_ne_none a'
  · intro p hp
    have hp' : σ.buffers.cell p ≠ none := by
      intro hnone
      rw [hbuffers] at hp
      by_cases hpb : p = b.buffer
      · rw [hpb, hcell] at hnone
        cases hnone
      · rw [update_of_ne hpb] at hp
        exact hp hnone
    obtain ⟨z, e, hz, he⟩ := h.counted.held p hp'
    by_cases hzx : z = x
    · subst hzx
      rw [hx, Option.some_inj] at hz
      subst hz
      exact ⟨z, { b with size := size }, by rw [hvar, update_self], he⟩
    · exact ⟨z, e, by rw [hvar, update_of_ne hzx, hz], he⟩
  · intro z w e f hz hw
    obtain ⟨e', hz', hcount, hbuffer⟩ := hvars z e hz
    obtain ⟨f', hw', hcount', hbuffer'⟩ := hvars w f hw
    rw [hcount, hcount', hbuffer, hbuffer']
    exact h.counted.together z w e' f' hz' hw'
  · intro z e hz
    rcases var_update hvar hz with ⟨-, rfl⟩ | ⟨-, hz⟩
    · have hb := h.sized x b hx
      have hframe : Sized σ' b := hb.frame (fun _ a ha => hlive b.buffer a ha)
      exact ⟨hfits, hframe.small, hframe.buffer⟩
    · exact (h.sized z e hz).frame (fun _ a ha => hlive e.buffer a ha)

end Good

end LearnSpace.Network
