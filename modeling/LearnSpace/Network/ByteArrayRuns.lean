import LearnSpace.Keel.TSys
import LearnSpace.Network.ByteArrayBounds

/-!
# Runs that keep the counters

Which operations keep the counters right is known before they are called (`Call.Sound`).
From every state that is reached by such operations alone, the next operation keeps them
right exactly if it is one, too.
-/

namespace LearnSpace.Network

open Keel Function
open KvStore (Byte Source strlen readAt writeAt)

variable {ι : Type} [Fintype ι] [DecidableEq ι] {σ σ' : State ι} {x y : ι}
  {b c : CMByteArray} {p : Ptr} {n : Int} {len size : Nat} {byte : Source}

/-! ## Which operations -/

/-- No other variable shares the counter. -/
def Alone (σ : State ι) (b : CMByteArray) : Prop := σ.counters.cell b.useCount = some 1

/-- `len` more bytes fit into the buffer, which is not shared; or it is, but the new size
wraps to 0, which `creatMemory` throws at. -/
def Fits (σ : State ι) (b : CMByteArray) (len : Nat) : Prop :=
  (Alone σ b ∧ b.size + len ≤ b.bufferLen) ∨ (¬ Alone σ b ∧ (b.size + len) % uintSize = 0)

/-- The length that `insert` asks of `creatMemory` for an own buffer wraps to 0. -/
def GrowthThrows (σ : State ι) (b : CMByteArray) (len : Nat) : Prop :=
  Alone σ b ∧ b.bufferLen < (b.size + len) % uintSize ∧
    ((b.size + len) % uintSize - b.bufferLen + (b.size + len) % uintSize) % uintSize = 0

/-- The operations that keep the counters right: no assignment; no copy that the counter
cannot count; and bytes are added only where there is room for them. -/
def Call.Sound (σ : State ι) : Call ι → Prop
  | .copyConstruct _ other | .moveConstruct _ other =>
      ∀ o, σ.var other = some o → σ.counters.cell o.useCount ≠ some intMax
  | .copyAssign _ _ | .moveAssign _ _ => False
  | .append x str => ∀ b byte len, σ.var x = some b → str.data σ = some (byte, len) →
      len = 0 ∨ Fits σ b len
  | .insert x pos str => ∀ b byte len, σ.var x = some b → str.data σ = some (byte, len) →
      b.size < pos ∨ len = 0 ∨ Fits σ b len ∨ (pos < b.size ∧ GrowthThrows σ b len)
  | _ => True

/-- What the claim of the counters is for one operation: it has a defined behaviour, so
that nothing is touched that was freed, and the counters are right in the state behind it,
if the process goes on. -/
structure KeepsCounts (σ : State ι) (c : Call ι) : Prop where
  inside : c.run σ ≠ .error .undefined
  counted : ∀ σ' answer, c.run σ = .ok (σ', answer) → Counted σ'

/-- Runs of any operations that a program can make, on any number of variables. -/
def runs (ι : Type) [DecidableEq ι] : TSys (State ι) (Call ι) where
  init σ := σ = .empty
  step σ c σ' := c.Legal σ ∧ ∃ answer, c.run σ = .ok (σ', answer)

/-- Runs of sound operations. -/
def soundRuns (ι : Type) [Fintype ι] [DecidableEq ι] : TSys (State ι) (Call ι) where
  init σ := σ = .empty
  step σ c σ' := c.Legal σ ∧ c.Sound σ ∧ ∃ answer, c.run σ = .ok (σ', answer)

/-! ## Constructors -/

omit [DecidableEq ι] in
theorem empty_good : Good (State.empty : State ι) := by
  refine ⟨⟨?_, ?_, ?_, ?_, ?_⟩, ?_⟩
  · intro p n hn
    cases hn
  · intro x b hx
    cases hx
  · intro x b hx
    cases hx
  · intro p hp
    exact absurd rfl hp
  · intro x y b c hx
    cases hx
  · intro x b hx
    cases hx

theorem construct_good (h : Good σ) (hx : σ.var x = none) :
    ∃ σ', σ.construct x = some (σ', .done) ∧ Good σ' := by
  refine ⟨_, rfl, ?_⟩
  refine h.add (b := { useCount := (σ.counters.alloc 1).1 }) hx rfl
    (Heap.alloc_fresh σ.counters 1) (Heap.alloc_cell σ.counters 1) (.inl ⟨rfl, rfl⟩) ?_
  exact ⟨Nat.le_refl 0, Nat.two_pow_pos 32, .inl ⟨rfl, rfl⟩⟩

/-- A variable is constructed with a buffer. -/
theorem construct_buffer_good (h : Good σ) (hx : σ.var x = none) {bytes d : List Byte}
    {buffers : Heap (List Byte)} {m : Nat}
    (hcell : buffers.cell = update (σ.buffers.alloc bytes).2.cell (σ.buffers.alloc bytes).1
      (some d)) (hlen : d.length = len) (hsmall : len < uintSize) (hfits : m ≤ len) :
    Good ({ σ with buffers := buffers, counters := (σ.counters.alloc 1).2 }.set x
      { buffer := (σ.buffers.alloc bytes).1, bufferLen := len, size := m,
        useCount := (σ.counters.alloc 1).1 }) := by
  have hcell' : buffers.cell = update σ.buffers.cell (σ.buffers.alloc bytes).1 (some d) := by
    rw [hcell, Heap.alloc_cell, update_idem]
  have hnull : (σ.buffers.alloc bytes).1 ≠ null := Nat.ne_of_gt σ.buffers.null_lt_brk
  refine h.add hx rfl (Heap.alloc_fresh σ.counters 1) (Heap.alloc_cell σ.counters 1)
    (.inr ⟨d, hnull, Heap.alloc_fresh σ.buffers bytes, hcell'⟩) ?_
  refine ⟨hfits, hsmall, .inr ⟨d, ?_, hlen⟩⟩
  show buffers.cell _ = _
  rw [hcell', update_self]

theorem constructSize_good (h : Good σ) (hx : σ.var x = none) (hsize : size ≠ 0)
    (hsmall : size < uintSize) :
    ∃ σ', σ.constructSize x size = some (σ', .done) ∧ Good σ' := by
  refine ⟨_, if_neg hsize, ?_⟩
  refine construct_buffer_good h hx (d := List.replicate size 0) ?_ List.length_replicate hsmall
    (Nat.zero_le size)
  rw [Heap.alloc_cell, update_idem]

theorem constructPtrLen_good (h : Good σ) (hx : σ.var x = none) {str : List Byte}
    (hlen : len ≠ 0) (hsmall : len < uintSize) (hstr : len ≤ str.length) :
    ∃ σ', σ.constructPtrLen x str len = some (σ', .done) ∧ Good σ' := by
  have hcell : (σ.buffers.alloc (List.replicate len 0)).2.cell
      (σ.buffers.alloc (List.replicate len 0)).1 = some (List.replicate len 0) := by
    rw [Heap.alloc_cell, update_self]
  obtain ⟨buffers, d, hcopy, hd, hcell'⟩ := memcpy_inside 0
    (show Readable _ (.bytes str) len from hstr) hcell (by rw [List.length_replicate, Nat.zero_add])
  rw [List.length_replicate] at hd
  refine ⟨_, ?_, construct_buffer_good h hx hcell' hd hsmall (Nat.le_refl len)⟩
  rw [State.constructPtrLen, if_neg hlen]
  simp only [hcopy, Option.bind_eq_bind, Option.bind_some, Option.pure_def]

/-! ## Copies and the destructor -/

omit [DecidableEq ι] in
theorem Good.useCount_ne_null (h : Good σ) (hx : σ.var x = some b) : b.useCount ≠ null := by
  obtain ⟨n, hn, -⟩ := h.counter_live hx
  exact σ.counters.ne_null hn

theorem countAdd_eq {h : Heap Int} (hn : h.cell p = some n) (hmax : n ≠ intMax) :
    ∃ h', countAdd h p = some h' ∧ h'.cell = update h.cell p (some (n + 1)) := by
  obtain ⟨h', hstore, hcell, -⟩ := Heap.store_eq hn (n + 1)
  refine ⟨h', ?_, hcell⟩
  simp only [countAdd, Heap.load, hn, Option.bind_eq_bind, Option.bind_some, if_neg hmax, hstore]

theorem countAdd_max {h : Heap Int} (hn : h.cell p = some intMax) : countAdd h p = none := by
  simp only [countAdd, Heap.load, hn, Option.bind_eq_bind, Option.bind_some, if_true]

theorem countSub_eq {h : Heap Int} (hn : h.cell p = some n) (hpos : 0 < n) :
    ∃ h', countSub h p = some h' ∧ h'.cell = update h.cell p (some (n - 1)) := by
  obtain ⟨h', hstore, hcell, -⟩ := Heap.store_eq hn (n - 1)
  refine ⟨h', ?_, hcell⟩
  have hmin : n ≠ -intMax - 1 := by
    rw [intMax]
    omega
  simp only [countSub, Heap.load, hn, Option.bind_eq_bind, Option.bind_some, if_neg hmin, hstore]

/-- Taking part in a counter that can count one more. -/
theorem share_eq (h : Good σ) (hy : σ.var y = some c) (hn : σ.counters.cell c.useCount = some n)
    (hmax : n ≠ intMax) (x : ι) :
    ∃ counters, counters.cell = update σ.counters.cell c.useCount (some (n + 1)) ∧
      σ.share x y = some ({ σ with counters := counters }.set x c, .done) := by
  obtain ⟨counters, hadd, hcell⟩ := countAdd_eq hn hmax
  refine ⟨counters, hcell, ?_⟩
  rw [State.share, hy, Option.bind_eq_bind, Option.bind_some, if_neg (h.useCount_ne_null hy)]
  simp only [hadd, Option.bind_eq_bind, Option.bind_some, Option.pure_def]

theorem share_max (h : Good σ) (hy : σ.var y = some c)
    (hn : σ.counters.cell c.useCount = some intMax) (x : ι) : σ.share x y = none := by
  rw [State.share, hy, Option.bind_eq_bind, Option.bind_some, if_neg (h.useCount_ne_null hy),
    countAdd_max hn]
  rfl

theorem share_good (h : Good σ) (hx : σ.var x = none) (hy : σ.var y = some c)
    (hmax : σ.counters.cell c.useCount ≠ some intMax) :
    ∃ σ', σ.share x y = some (σ', .done) ∧ Good σ' := by
  obtain ⟨n, hn, -⟩ := h.counter_live hy
  have hne : n ≠ intMax := by
    rintro rfl
    exact hmax hn
  obtain ⟨counters, hcell, heq⟩ := share_eq h hy hn hne x
  exact ⟨_, heq, h.join hx hy rfl hn hcell rfl⟩

theorem destroy_good (h : Good σ) (hx : σ.var x = some b) :
    ∃ σ', σ.destroy x = some (σ', .done) ∧ Good σ' := by
  obtain ⟨n, hn, hpos, -⟩ := h.counter_live hx
  by_cases hone : n = 1
  · subst hone
    obtain ⟨counters, hfree, hcell⟩ := Heap.free_eq hn
    obtain ⟨buffers, hdelete, hbuffers⟩ : ∃ buffers,
        deleteBuffer σ.buffers b.buffer = some buffers ∧
          buffers.cell = update σ.buffers.cell b.buffer none := by
      by_cases hnull : b.buffer = null
      · refine ⟨σ.buffers, if_pos hnull, ?_⟩
        rw [hnull, ← σ.buffers.cell_null, update_eq_self]
      · obtain ⟨d, hd⟩ := Option.ne_none_iff_exists'.mp (h.counted.buffer x b hx hnull)
        obtain ⟨buffers, hfree', hcell'⟩ := Heap.free_eq hd
        exact ⟨buffers, (if_neg hnull).trans hfree', hcell'⟩
    refine ⟨{ σ with buffers := buffers, counters := counters, var := update σ.var x none }, ?_,
      h.leave_last hx rfl hn hcell hbuffers⟩
    simp only [State.destroy, State.freeMemory, hx, if_neg (h.useCount_ne_null hx), Heap.load, hn,
      hfree, hdelete, Option.bind_eq_bind, Option.bind_some, if_true, Option.pure_def, State.set,
      update_idem]
  · obtain ⟨counters, hsub, hcell⟩ := countSub_eq hn hpos
    refine ⟨{ σ with counters := counters, var := update σ.var x none }, ?_,
      h.leave hx rfl hn hone hcell rfl⟩
    simp only [State.destroy, State.freeMemory, hx, if_neg (h.useCount_ne_null hx), Heap.load, hn,
      if_neg hone, hsub, Option.bind_eq_bind, Option.bind_some, Option.pure_def]

/-! ## Assignments -/

/-- After an assignment a counter is wrong: the one of the other variable, if both shared
it before, or else the one that was left. -/
theorem share_breaks (h : Good σ) (hx : σ.var x = some b)
    (hcounters : σ'.counters.cell = update σ.counters.cell c.useCount (some (n + 1)))
    (hn : σ.counters.cell c.useCount = some n) (hvar : σ'.var = update σ.var x (some c)) :
    ¬ Counted σ' := by
  intro hcounted
  by_cases hsame : b.useCount = c.useCount
  · -- the counter went up, its variables are the same
    have hcount := h.counted.counts c.useCount n hn
    have hnow := hcounted.counts c.useCount (n + 1) (by rw [hcounters, update_self])
    have hholders := holders_counterOf hvar c.useCount
    rw [counterOf_some hx, Option.map_some, if_pos (congrArg some hsame), if_pos rfl] at hholders
    omega
  · -- the counter that was left did not go down
    obtain ⟨m, hm, -, hcount⟩ := h.counter_live hx
    have hnow := hcounted.counts b.useCount m (by rw [hcounters, update_of_ne hsame, hm])
    have hholders := holders_counterOf hvar b.useCount
    rw [counterOf_some hx, Option.map_some, if_pos rfl,
      if_neg (fun he => hsame (Option.some_inj.mp he).symm)] at hholders
    omega

theorem share_assigned (h : Good σ) (hx : σ.var x = some b) (hy : σ.var y = some c)
    {answer : Answer} (hshare : σ.share x y = some (σ', answer)) : ¬ Counted σ' := by
  obtain ⟨n, hn, -⟩ := h.counter_live hy
  by_cases hmax : n = intMax
  · rw [share_max h hy (hmax ▸ hn)] at hshare
    cases hshare
  · obtain ⟨counters, hcell, heq⟩ := share_eq h hy hn hmax x
    rw [heq] at hshare
    cases hshare
    exact share_breaks h hx hcell hn rfl

/-! ## Memory for `append` and `insert` -/

omit [Fintype ι] [DecidableEq ι] in
theorem andThen_some {r : Option (State ι × Answer)} {f : State ι → Option (State ι × Answer)}
    {s : State ι × Answer} (h : andThen r f = some s) :
    (∃ τ, r = some (τ, .done) ∧ f τ = some s) ∨ (r = some s ∧ s.2 ≠ .done) := by
  match r, h with
  | some (τ, .done), h => exact .inl ⟨τ, rfl, h⟩
  | some (τ, .badArrayNewLength), h =>
      cases h
      exact .inr ⟨rfl, fun he => nomatch he⟩

theorem stepped_some {m : Nat} (h : stepped m = some size) : m ≤ size ∧ (m ≠ 0 → size ≠ 0) := by
  rw [stepped] at h
  split at h
  · cases h
    have hle := Double.le_timesThreeHalves m
    exact ⟨hle, by omega⟩
  · cases h

omit [Fintype ι] in
theorem creatMemory_zero (σ : State ι) (x : ι) :
    σ.creatMemory x 0 = some (σ, .badArrayNewLength) := rfl

omit [Fintype ι] in
/-- `creatMemory` comes to its end only if the new buffer is no longer than the old one.
The variable has the new one then, and the counter it had. -/
theorem creatMemory_some (hsized : Sized σ b) (hx : σ.var x = some b) (hsize : size ≠ 0)
    {answer : Answer} (h : σ.creatMemory x size = some (σ', answer)) :
    answer = .done ∧ size ≤ b.bufferLen ∧
      σ'.var = update σ.var x (some { b with buffer := σ.buffers.brk, bufferLen := size }) ∧
      ∃ d, σ'.buffers.cell σ.buffers.brk = some d ∧ d.length = size := by
  obtain ⟨hdone, hmoved⟩ := creatMemory_based hsized.based hx hsize h
  exact ⟨hdone, hmoved.le, hmoved.var, hmoved.cell⟩

omit [Fintype ι] in
/-- A variable that shares with nobody is left alone. -/
theorem detach_alone (hx : σ.var x = some b) (halone : Alone σ b) (newSize : Nat) :
    σ.detach x newSize = some (σ, .done) := by
  have hone : ¬ (1 : Int) > 1 := by omega
  rw [Alone] at halone
  simp only [State.detach, hx, Heap.load, halone, Option.bind_eq_bind, Option.bind_some,
    if_neg hone, Option.pure_def]

/-- For a variable that shares `creatMemory` is called. -/
theorem detach_shared (h : Good σ) (hx : σ.var x = some b) (hshared : ¬ Alone σ b)
    (newSize : Nat) : σ.detach x newSize = (stepped newSize).bind (σ.creatMemory x) := by
  obtain ⟨n, hn, hpos, -⟩ := h.counter_live hx
  have hmany : n > 1 := by
    have hne : n ≠ 1 := by
      rintro rfl
      exact hshared hn
    omega
  simp only [State.detach, hx, Heap.load, hn, Option.bind_eq_bind, Option.bind_some,
    if_pos hmany]

theorem stepped_zero : stepped 0 = some 0 := by decide

theorem detach_zero (h : Good σ) (hx : σ.var x = some b) (hshared : ¬ Alone σ b) :
    σ.detach x 0 = some (σ, .badArrayNewLength) := by
  rw [detach_shared h hx hshared, stepped_zero, Option.bind_some, creatMemory_zero]

theorem detach_some (h : Good σ) (hx : σ.var x = some b) (hshared : ¬ Alone σ b)
    {newSize : Nat} (hnew : newSize ≠ 0) {answer : Answer}
    (hdetach : σ.detach x newSize = some (σ', answer)) :
    answer = .done ∧ ∃ size, newSize ≤ size ∧
      σ'.var = update σ.var x (some { b with buffer := σ.buffers.brk, bufferLen := size }) := by
  rw [detach_shared h hx hshared, Option.bind_eq_some_iff] at hdetach
  obtain ⟨size, hsize, hmemory⟩ := hdetach
  obtain ⟨hle, hne⟩ := stepped_some hsize
  obtain ⟨hdone, -, hvar, -⟩ := creatMemory_some (h.sized x b hx) hx (hne hnew) hmemory
  exact ⟨hdone, size, hle, hvar⟩

/-- A variable that left a shared buffer and kept the counter breaks the counts. -/
theorem detached_breaks (h : Good σ) (hx : σ.var x = some b) (hshared : ¬ Alone σ b)
    (hvar : σ'.var = update σ.var x (some c)) (hbuffer : c.buffer = σ.buffers.brk)
    (hcounter : c.useCount = b.useCount) : ¬ Counted σ' := by
  intro hcounted
  obtain ⟨n, hn, hpos, hcount⟩ := h.counter_live hx
  have hmany : 1 < holders σ.counterOf b.useCount := by
    have hne : n ≠ 1 := by
      rintro rfl
      exact hshared hn
    omega
  -- another variable still has the counter, and the old buffer
  obtain ⟨y, hyx, hy⟩ := exists_other hmany x
  obtain ⟨d, hd, hsame⟩ := Option.map_eq_some_iff.mp hy
  have hnow : σ'.var y = some d := by rw [hvar, update_of_ne hyx, hd]
  have heq := (hcounted.together x y c d (by rw [hvar, update_self]) hnow).1
    (hcounter.trans hsame.symm)
  rw [hbuffer] at heq
  by_cases hnull : d.buffer = null
  · exact absurd (heq.trans hnull) (Nat.ne_of_gt σ.buffers.null_lt_brk)
  · obtain ⟨a, ha⟩ := Option.ne_none_iff_exists'.mp (h.counted.buffer y d hd hnull)
    exact absurd heq (Nat.ne_of_gt (σ.buffers.lt_brk ha))

/-- Whatever is written into the new buffer of a variable that has left a shared one, the
counts are broken. -/
theorem detach_breaks (h : Good σ) (hx : σ.var x = some b) (hshared : ¬ Alone σ b)
    {newSize : Nat} (hnew : newSize ≠ 0) {f : State ι → Option (State ι × Answer)}
    (hf : ∀ τ size s, newSize ≤ size →
      τ.var x = some { b with buffer := σ.buffers.brk, bufferLen := size } → f τ = some s →
      ∃ m, s.1.var = update τ.var x
        (some { b with buffer := σ.buffers.brk, bufferLen := size, size := m }))
    {answer : Answer} (hrun : andThen (σ.detach x newSize) f = some (σ', answer)) :
    ¬ Counted σ' := by
  rcases andThen_some hrun with ⟨τ, hdetach, hrest⟩ | ⟨hdetach, hthrown⟩
  · obtain ⟨-, size, hle, hvar⟩ := detach_some h hx hshared hnew hdetach
    obtain ⟨m, hset⟩ := hf τ size _ hle (by rw [hvar, update_self]) hrest
    rw [hvar, update_idem] at hset
    exact detached_breaks h hx hshared hset rfl rfl
  · obtain ⟨hdone, -⟩ := detach_some h hx hshared hnew hdetach
    exact absurd hdone hthrown

/-! ## The bytes that are added -/

omit [DecidableEq ι] in
/-- The bytes of an argument are there. -/
theorem Arg.readable (h : Good σ) {str : Arg ι} (hdata : str.data σ = some (byte, len))
    (hlen : len ≠ 0) : Readable σ.buffers byte len := by
  cases str with
  | ptr bytes =>
      cases hdata
      exact Nat.le_refl bytes.length
  | cstr bytes =>
      cases hdata
      apply Nat.le_trans (Nat.mod_le _ _)
      exact (List.takeWhile_sublist _).length_le
  | array other =>
      obtain ⟨o, ho, heq⟩ := Option.map_eq_some_iff.mp hdata
      cases heq
      have hsized := h.sized other o ho
      rcases hsized.buffer with ⟨-, hzero⟩ | ⟨d, hd, hlength⟩
      · have hfits := hsized.fits
        omega
      · have hfits := hsized.fits
        exact ⟨d, hd, by omega⟩

theorem Readable.update {h h' : Heap (List Byte)} {d d' : List Byte}
    (hr : Readable h byte len) (hcell : h.cell p = some d) (hlength : d'.length = d.length)
    (hcell' : h'.cell = Function.update h.cell p (some d')) : Readable h' byte len := by
  cases byte with
  | bytes a => exact hr
  | buffer q off =>
      obtain ⟨a, ha, hfits⟩ := hr
      by_cases hq : q = p
      · rw [hq, hcell, Option.some_inj] at ha
        subst ha
        exact ⟨d', by rw [hcell', hq, update_self], by omega⟩
      · exact ⟨a, by rw [hcell', update_of_ne hq, ha], hfits⟩

omit [Fintype ι] [DecidableEq ι] in
/-- The buffer of a variable that has bytes, or room for them. -/
theorem Sized.cell (h : Sized σ b) (hlen : b.bufferLen ≠ 0) :
    ∃ d, σ.buffers.cell b.buffer = some d ∧ d.length = b.bufferLen := by
  rcases h.buffer with ⟨-, hzero⟩ | hd
  · exact absurd hzero hlen
  · exact hd

omit [Fintype ι] [DecidableEq ι] in
/-- A write that is defined stays within the length of the buffer. -/
theorem Sized.length_eq (h : Sized σ b) {d : List Byte} (hd : σ.buffers.cell b.buffer = some d) :
    d.length = b.bufferLen := by
  rcases h.buffer with ⟨hnull, -⟩ | ⟨d', hd', hlength⟩
  · rw [hnull, Heap.cell_null] at hd
    cases hd
  · rw [hd, Option.some_inj] at hd'
    rw [hd', hlength]

/-! ## `append` -/

/-- Bytes that fit are written behind the others. -/
theorem appendPtr_room (h : Good σ) (hx : σ.var x = some b) (halone : Alone σ b)
    (hroom : b.size + len ≤ b.bufferLen) (hlen : len ≠ 0) (hr : Readable σ.buffers byte len) :
    ∃ σ', σ.appendPtr x byte len = some (σ', .done) ∧ Good σ' := by
  have hsized := h.sized x b hx
  have hsmall := hsized.small
  obtain ⟨d, hd, hlength⟩ := hsized.cell (by omega)
  obtain ⟨buffers, d', hcopy, hd', hcell⟩ := memcpy_inside b.size hr hd (by omega)
  have hwrap : (b.size + len) % uintSize = b.size + len := Nat.mod_eq_of_lt (by omega)
  have hno : ¬ b.bufferLen < (len + b.size) % uintSize := by
    rw [Nat.add_comm, hwrap]
    omega
  refine ⟨{ σ with buffers := buffers }.set x { b with size := (b.size + len) % uintSize }, ?_,
    h.write hx rfl rfl hd hd' hcell (by omega)⟩
  rw [State.appendPtr, if_neg hlen, hx, Option.bind_eq_bind, Option.bind_some]
  simp only [detach_alone hx halone, andThen, hx, Option.bind_eq_bind, Option.bind_some,
    if_neg hno, hcopy, Option.pure_def]

/-- Bytes that do not fit lead out of the old buffer. -/
theorem appendPtr_no_room (h : Good σ) (hx : σ.var x = some b) (halone : Alone σ b)
    (hroom : ¬ b.size + len ≤ b.bufferLen) (hlen : len ≠ 0) : σ.appendPtr x byte len = none := by
  apply Option.eq_none_iff_forall_ne_some.mpr
  rintro ⟨σ', answer⟩ happend
  have hsized := h.sized x b hx
  rw [State.appendPtr, if_neg hlen, hx, Option.bind_eq_bind, Option.bind_some] at happend
  simp only [detach_alone hx halone, andThen, hx, Option.bind_eq_bind, Option.bind_some]
    at happend
  by_cases hgrow : b.bufferLen < (len + b.size) % uintSize
  · -- `creatMemory` would need an old buffer that is as long as the new one
    rw [if_pos hgrow] at happend
    cases hstep : stepped ((len + b.size) % uintSize) with
    | none =>
        rw [hstep] at happend
        cases happend
    | some size =>
        obtain ⟨hle, hne⟩ := stepped_some hstep
        rw [hstep, Option.bind_some] at happend
        cases hmemory : σ.creatMemory x size with
        | none =>
            rw [hmemory] at happend
            cases happend
        | some r =>
            obtain ⟨τ, answer⟩ := r
            have hshort := (creatMemory_some hsized hx (hne (by omega)) hmemory).2.1
            omega
  · -- the new size has wrapped, and the bytes are written behind the end
    simp only [if_neg hgrow, hx, Option.bind_some] at happend
    obtain ⟨buffers, hcopy, -⟩ := Option.bind_eq_some_iff.mp happend
    obtain ⟨-, d, d', hd, hfits, -⟩ := memcpy_some hlen hcopy
    have hlength := hsized.length_eq hd
    omega

/-- Where the buffer is shared and the new size is not 0, the counts break. -/
theorem appendPtr_shared (h : Good σ) (hx : σ.var x = some b) (hshared : ¬ Alone σ b)
    (hlen : len ≠ 0) (hnew : (b.size + len) % uintSize ≠ 0) {answer : Answer}
    (happend : σ.appendPtr x byte len = some (σ', answer)) : ¬ Counted σ' := by
  rw [State.appendPtr, if_neg hlen, hx, Option.bind_eq_bind, Option.bind_some] at happend
  rw [Nat.add_comm] at hnew
  refine detach_breaks h hx hshared hnew ?_ happend
  intro τ size s hle hb hrest
  simp only [hb, Option.bind_eq_bind, Option.bind_some, if_neg (Nat.not_lt.mpr hle),
    andThen] at hrest
  obtain ⟨buffers, -, hset⟩ := Option.bind_eq_some_iff.mp hrest
  cases hset
  exact ⟨_, rfl⟩

/-- Where it is 0, nothing happens. -/
theorem appendPtr_zero (h : Good σ) (hx : σ.var x = some b) (hshared : ¬ Alone σ b)
    (hlen : len ≠ 0) (hnew : (b.size + len) % uintSize = 0) :
    σ.appendPtr x byte len = some (σ, .badArrayNewLength) := by
  rw [State.appendPtr, if_neg hlen, hx, Option.bind_eq_bind, Option.bind_some, Nat.add_comm, hnew]
  simp only [detach_zero h hx hshared, andThen]

/-! ## `insert` before the end -/

/-- Bytes that fit: the tail is moved, and they are written before it. -/
theorem insertPtr_room {pos : Nat} (h : Good σ) (hx : σ.var x = some b) (halone : Alone σ b)
    (hroom : b.size + len ≤ b.bufferLen) (hlen : len ≠ 0) (hpos : pos < b.size)
    (hr : Readable σ.buffers byte len) :
    ∃ σ', σ.insertPtr x pos byte len = some (σ', .done) ∧ Good σ' := by
  have hsized := h.sized x b hx
  have hsmall := hsized.small
  obtain ⟨d, hd, hlength⟩ := hsized.cell (by omega)
  have htail : Readable σ.buffers (.buffer b.buffer pos) (b.size - pos) := ⟨d, hd, by omega⟩
  obtain ⟨buffers, d', hmove, hd', hcell⟩ := memcpy_inside (pos + len) htail hd (by omega)
  have hnow : buffers.cell b.buffer = some d' := by rw [hcell, update_self]
  obtain ⟨buffers', d'', hcopy, hd'', hcell'⟩ :=
    memcpy_inside pos (hr.update hd hd' hcell) hnow (by omega)
  rw [hcell, update_idem] at hcell'
  have hwrap : (b.size + len) % uintSize = b.size + len := Nat.mod_eq_of_lt (by omega)
  have hno : ¬ b.bufferLen < (b.size + len) % uintSize := by
    rw [hwrap]
    omega
  have hinside : ¬ (pos > b.size ∨ len = 0) := by omega
  refine ⟨{ σ with buffers := buffers' }.set x { b with size := (b.size + len) % uintSize }, ?_,
    h.write hx rfl rfl hd (hd''.trans hd') hcell' (by omega)⟩
  rw [State.insertPtr, hx, Option.bind_eq_bind, Option.bind_some, if_neg hinside,
    if_neg (by omega)]
  simp only [detach_alone hx halone, andThen, hx, Option.bind_eq_bind, Option.bind_some, if_neg hno,
    hmove, hcopy, Option.pure_def]

/-- Bytes that do not fit lead out of the old buffer, or out of the new one if the length
asked for has wrapped. -/
theorem insertPtr_no_room {pos : Nat} (h : Good σ) (hx : σ.var x = some b)
    (halone : Alone σ b) (hroom : ¬ b.size + len ≤ b.bufferLen) (hlen : len ≠ 0)
    (hpos : pos < b.size) (hthrows : ¬ GrowthThrows σ b len) :
    σ.insertPtr x pos byte len = none := by
  apply Option.eq_none_iff_forall_ne_some.mpr
  rintro ⟨σ', answer⟩ hinsert
  have hsized := h.sized x b hx
  have hinside : ¬ (pos > b.size ∨ len = 0) := by omega
  rw [State.insertPtr, hx, Option.bind_eq_bind, Option.bind_some, if_neg hinside,
    if_neg (by omega)] at hinsert
  simp only [detach_alone hx halone, andThen, hx, Option.bind_eq_bind, Option.bind_some]
    at hinsert
  by_cases hgrow : b.bufferLen < (b.size + len) % uintSize
  · have hmod := Nat.mod_le (b.size + len) uintSize
    have hne : ((b.size + len) % uintSize - b.bufferLen + (b.size + len) % uintSize) %
        uintSize ≠ 0 := fun hzero => hthrows ⟨halone, hgrow, hzero⟩
    rw [if_pos hgrow] at hinsert
    generalize ((b.size + len) % uintSize - b.bufferLen + (b.size + len) % uintSize) %
      uintSize = size at hne hinsert
    rcases andThen_some hinsert with ⟨τ, hmemory, hrest⟩ | ⟨hmemory, hthrown⟩
    · obtain ⟨-, hshort, hvar, a, ha, hlength⟩ := creatMemory_some hsized hx hne hmemory
      have hb : τ.var x = some { b with buffer := σ.buffers.brk, bufferLen := size } := by
        rw [hvar, update_self]
      rw [hb, Option.bind_some] at hrest
      obtain ⟨buffers, hcopy, -⟩ := Option.bind_eq_some_iff.mp hrest
      -- the new buffer is no longer than the old one, so the tail does not fit
      have htail : b.size - pos ≠ 0 := by omega
      obtain ⟨-, d, d', hd, hfits, -⟩ := memcpy_some htail hcopy
      rw [ha, Option.some_inj] at hd
      subst hd
      omega
    · exact absurd (creatMemory_some hsized hx hne hmemory).1 hthrown
  · simp only [if_neg hgrow, hx, Option.bind_some] at hinsert
    obtain ⟨buffers, hcopy, -⟩ := Option.bind_eq_some_iff.mp hinsert
    obtain ⟨-, d, d', hd, hfits, -⟩ := memcpy_some (by omega) hcopy
    have hlength := hsized.length_eq hd
    omega

omit [Fintype ι] in
/-- The length asked for wraps to 0: nothing happens. -/
theorem insertPtr_throws {pos : Nat} (hx : σ.var x = some b) (hlen : len ≠ 0)
    (hpos : pos < b.size) (hthrows : GrowthThrows σ b len) :
    σ.insertPtr x pos byte len = some (σ, .badArrayNewLength) := by
  obtain ⟨halone, hgrow, hzero⟩ := hthrows
  have hinside : ¬ (pos > b.size ∨ len = 0) := by omega
  rw [State.insertPtr, hx, Option.bind_eq_bind, Option.bind_some, if_neg hinside,
    if_neg (by omega)]
  simp only [detach_alone hx halone, andThen, hx, Option.bind_eq_bind, Option.bind_some,
    if_pos hgrow, hzero, creatMemory_zero]

theorem insertPtr_shared {pos : Nat} (h : Good σ) (hx : σ.var x = some b)
    (hshared : ¬ Alone σ b) (hlen : len ≠ 0) (hpos : pos < b.size)
    (hnew : (b.size + len) % uintSize ≠ 0) {answer : Answer}
    (hinsert : σ.insertPtr x pos byte len = some (σ', answer)) : ¬ Counted σ' := by
  have hinside : ¬ (pos > b.size ∨ len = 0) := by omega
  rw [State.insertPtr, hx, Option.bind_eq_bind, Option.bind_some, if_neg hinside,
    if_neg (by omega)] at hinsert
  refine detach_breaks h hx hshared hnew ?_ hinsert
  intro τ size s hle hb hrest
  simp only [hb, Option.bind_eq_bind, Option.bind_some, if_neg (Nat.not_lt.mpr hle),
    andThen] at hrest
  obtain ⟨buffers, -, hrest⟩ := Option.bind_eq_some_iff.mp hrest
  obtain ⟨buffers', -, hset⟩ := Option.bind_eq_some_iff.mp hrest
  cases hset
  exact ⟨_, rfl⟩

theorem insertPtr_zero {pos : Nat} (h : Good σ) (hx : σ.var x = some b)
    (hshared : ¬ Alone σ b) (hlen : len ≠ 0) (hpos : pos < b.size)
    (hnew : (b.size + len) % uintSize = 0) :
    σ.insertPtr x pos byte len = some (σ, .badArrayNewLength) := by
  have hinside : ¬ (pos > b.size ∨ len = 0) := by omega
  rw [State.insertPtr, hx, Option.bind_eq_bind, Option.bind_some, if_neg hinside,
    if_neg (by omega), hnew]
  simp only [detach_zero h hx hshared, andThen]

/-! ## One operation -/

omit [Fintype ι] [DecidableEq ι] in
theorem returned_some {r : Option (State ι × Answer)} {answer : Answer}
    (hr : returned r = .ok (σ', answer)) : r = some (σ', answer) := by
  cases r with
  | none => cases hr
  | some s =>
      cases hr
      rfl

omit [Fintype ι] [DecidableEq ι] in
theorem noexcept_some {r : Option (State ι × Answer)} {answer : Answer}
    (hr : noexcept r = .ok (σ', answer)) : r = some (σ', answer) := by
  match r, hr with
  | some (_, .done), hr =>
      cases hr
      rfl

omit [DecidableEq ι] in
theorem returned_good {r : Option (State ι × Answer)}
    (h : ∃ σ' answer, r = some (σ', answer) ∧ Good σ') :
    returned r ≠ .error .undefined ∧ ∀ σ' answer, returned r = .ok (σ', answer) → Good σ' := by
  obtain ⟨τ, answer, rfl, hτ⟩ := h
  constructor
  · intro hr
    cases hr
  · intro σ' a hr
    cases returned_some hr
    exact hτ

omit [DecidableEq ι] in
theorem noexcept_good {r : Option (State ι × Answer)}
    (h : ∃ σ' answer, r = some (σ', answer) ∧ Good σ') :
    noexcept r ≠ .error .undefined ∧ ∀ σ' answer, noexcept r = .ok (σ', answer) → Good σ' := by
  obtain ⟨τ, answer, rfl, hτ⟩ := h
  constructor
  · intro hr
    cases answer with
    | done => cases hr
    | badArrayNewLength => cases hr
  · intro σ' a hr
    cases noexcept_some hr
    exact hτ

/-- Bytes are appended where there is room, or nothing happens. -/
theorem appendPtr_good (h : Good σ) (hx : σ.var x = some b)
    (hr : len ≠ 0 → Readable σ.buffers byte len) (hfits : len = 0 ∨ Fits σ b len) :
    ∃ σ' answer, σ.appendPtr x byte len = some (σ', answer) ∧ Good σ' := by
  by_cases hlen : len = 0
  · exact ⟨σ, .done, if_pos hlen, h⟩
  · rcases hfits.resolve_left hlen with ⟨halone, hroom⟩ | ⟨hshared, hzero⟩
    · obtain ⟨σ', happend, hgood⟩ := appendPtr_room h hx halone hroom hlen (hr hlen)
      exact ⟨σ', .done, happend, hgood⟩
    · exact ⟨σ, .badArrayNewLength, appendPtr_zero h hx hshared hlen hzero, h⟩

/-- Elsewhere `append` is undefined, or the counters are wrong behind it. -/
theorem appendPtr_breaks (h : Good σ) (hx : σ.var x = some b)
    (hfits : ¬ (len = 0 ∨ Fits σ b len)) {answer : Answer}
    (happend : σ.appendPtr x byte len = some (σ', answer)) : ¬ Counted σ' := by
  obtain ⟨hlen, hfits⟩ := not_or.mp hfits
  by_cases halone : Alone σ b
  · have hroom : ¬ b.size + len ≤ b.bufferLen := fun hroom => hfits (.inl ⟨halone, hroom⟩)
    rw [appendPtr_no_room h hx halone hroom hlen] at happend
    cases happend
  · exact appendPtr_shared h hx halone hlen (fun hzero => hfits (.inr ⟨halone, hzero⟩)) happend

omit [Fintype ι] in
/-- Outside of the array, or with no bytes, `insert` does nothing. -/
theorem insertPtr_nothing {pos : Nat} (hx : σ.var x = some b) (hpos : pos > b.size ∨ len = 0) :
    σ.insertPtr x pos byte len = some (σ, .done) := by
  rw [State.insertPtr, hx, Option.bind_eq_bind, Option.bind_some, if_pos hpos]
  rfl

omit [Fintype ι] in
/-- At the end of the array `insert` is `append`. -/
theorem insertPtr_end (hx : σ.var x = some b) (hlen : len ≠ 0) :
    σ.insertPtr x b.size byte len = σ.appendPtr x byte len := by
  have hinside : ¬ (b.size > b.size ∨ len = 0) := by omega
  rw [State.insertPtr, hx, Option.bind_eq_bind, Option.bind_some, if_neg hinside, if_pos rfl]

theorem insertPtr_good {pos : Nat} (h : Good σ) (hx : σ.var x = some b)
    (hr : len ≠ 0 → Readable σ.buffers byte len)
    (hfits : b.size < pos ∨ len = 0 ∨ Fits σ b len ∨ (pos < b.size ∧ GrowthThrows σ b len)) :
    ∃ σ' answer, σ.insertPtr x pos byte len = some (σ', answer) ∧ Good σ' := by
  by_cases hnothing : pos > b.size ∨ len = 0
  · exact ⟨σ, .done, insertPtr_nothing hx hnothing, h⟩
  · obtain ⟨hle, hlen⟩ := not_or.mp hnothing
    have hcases := (hfits.resolve_left hle).resolve_left hlen
    by_cases hend : pos = b.size
    · subst hend
      rw [insertPtr_end hx hlen]
      apply appendPtr_good h hx hr
      rcases hcases with hfits | ⟨hlt, -⟩
      · exact .inr hfits
      · exact absurd hlt (Nat.lt_irrefl b.size)
    · have hpos : pos < b.size := by omega
      rcases hcases with (⟨halone, hroom⟩ | ⟨hshared, hzero⟩) | ⟨-, hthrows⟩
      · obtain ⟨σ', hinsert, hgood⟩ := insertPtr_room h hx halone hroom hlen hpos (hr hlen)
        exact ⟨σ', .done, hinsert, hgood⟩
      · exact ⟨σ, .badArrayNewLength, insertPtr_zero h hx hshared hlen hpos hzero, h⟩
      · exact ⟨σ, .badArrayNewLength, insertPtr_throws hx hlen hpos hthrows, h⟩

theorem insertPtr_breaks {pos : Nat} (h : Good σ) (hx : σ.var x = some b)
    (hfits : ¬ (b.size < pos ∨ len = 0 ∨ Fits σ b len ∨ (pos < b.size ∧ GrowthThrows σ b len)))
    {answer : Answer} (hinsert : σ.insertPtr x pos byte len = some (σ', answer)) :
    ¬ Counted σ' := by
  obtain ⟨-, hfits⟩ := not_or.mp hfits
  obtain ⟨hlen, hfits⟩ := not_or.mp hfits
  by_cases hend : pos = b.size
  · subst hend
    rw [insertPtr_end hx hlen] at hinsert
    exact appendPtr_breaks h hx (not_or.mpr ⟨hlen, (not_or.mp hfits).1⟩) hinsert
  · have hpos : pos < b.size := by omega
    by_cases halone : Alone σ b
    · have hroom : ¬ b.size + len ≤ b.bufferLen := fun hroom => hfits (.inl (.inl ⟨halone, hroom⟩))
      rw [insertPtr_no_room h hx halone hroom hlen hpos
        (fun hgrowth => hfits (.inr ⟨hpos, hgrowth⟩))] at hinsert
      cases hinsert
    · exact insertPtr_shared h hx halone hlen hpos
        (fun hzero => hfits (.inl (.inr ⟨halone, hzero⟩))) hinsert

omit [Fintype ι] [DecidableEq ι] in
/-- A variable that is constructed. -/
theorem var_some (hx : σ.var x ≠ none) : ∃ b, σ.var x = some b := Option.ne_none_iff_exists'.mp hx

omit [Fintype ι] [DecidableEq ι] in
theorem Arg.Legal.data {str : Arg ι} (hl : str.Legal σ) :
    ∃ byte len, str.data σ = some (byte, len) := by
  cases str with
  | ptr bytes => exact ⟨_, _, rfl⟩
  | cstr bytes => exact ⟨_, _, rfl⟩
  | array other =>
      obtain ⟨o, ho⟩ := Option.ne_none_iff_exists'.mp hl
      exact ⟨.buffer o.buffer 0, o.size, by rw [Arg.data, ho, Option.map_some]⟩

/-- A sound operation is defined and leads to a state where all is right again. -/
theorem Call.sound_good {k : Call ι} (h : Good σ) (hl : k.Legal σ) (hs : k.Sound σ) :
    k.run σ ≠ .error .undefined ∧ ∀ σ' answer, k.run σ = .ok (σ', answer) → Good σ' := by
  cases k with
  | construct x =>
      simp only [Call.run]
      apply noexcept_good
      obtain ⟨σ', hrun, hgood⟩ := construct_good h hl
      exact ⟨σ', .done, hrun, hgood⟩
  | constructSize x size =>
      simp only [Call.run]
      apply noexcept_good
      by_cases hsize : size = 0
      · exact ⟨σ, .badArrayNewLength, if_pos hsize, h⟩
      · obtain ⟨σ', hrun, hgood⟩ := constructSize_good h hl.1 hsize hl.2
        exact ⟨σ', .done, hrun, hgood⟩
  | constructPtrLen x str =>
      simp only [Call.run]
      apply noexcept_good
      by_cases hlen : str.length = 0
      · exact ⟨σ, .badArrayNewLength, if_pos hlen, h⟩
      · obtain ⟨σ', hrun, hgood⟩ := constructPtrLen_good h hl.1 hlen hl.2 (Nat.le_refl _)
        exact ⟨σ', .done, hrun, hgood⟩
  | constructStr x str =>
      simp only [Call.run]
      apply noexcept_good
      by_cases hlen : strlen str % uintSize = 0
      · exact ⟨σ, .badArrayNewLength, if_pos hlen, h⟩
      · have hle : strlen str % uintSize ≤ str.length :=
          Nat.le_trans (Nat.mod_le _ _) (List.takeWhile_sublist _).length_le
        obtain ⟨σ', hrun, hgood⟩ :=
          constructPtrLen_good h hl hlen (Nat.mod_lt _ (Nat.two_pow_pos 32)) hle
        exact ⟨σ', .done, hrun, hgood⟩
  | copyConstruct x other | moveConstruct x other =>
      simp only [Call.run]
      apply noexcept_good
      obtain ⟨o, ho⟩ := var_some hl.2
      obtain ⟨σ', hrun, hgood⟩ := share_good h hl.1 ho (hs o ho)
      exact ⟨σ', .done, hrun, hgood⟩
  | copyAssign x other | moveAssign x other => exact hs.elim
  | append x str =>
      simp only [Call.run]
      apply returned_good
      obtain ⟨b, hx⟩ := var_some hl.1
      obtain ⟨byte, len, hdata⟩ := hl.2.data
      rw [hdata]
      exact appendPtr_good h hx (Arg.readable h hdata) (hs b byte len hx hdata)
  | insert x pos str =>
      simp only [Call.run]
      apply returned_good
      obtain ⟨b, hx⟩ := var_some hl.1
      obtain ⟨byte, len, hdata⟩ := hl.2.2.data
      rw [hdata]
      exact insertPtr_good h hx (Arg.readable h hdata) (hs b byte len hx hdata)
  | destroy x =>
      simp only [Call.run]
      apply noexcept_good
      obtain ⟨b, hx⟩ := var_some hl
      obtain ⟨σ', hrun, hgood⟩ := destroy_good h hx
      exact ⟨σ', .done, hrun, hgood⟩

omit [Fintype ι] [DecidableEq ι] in
theorem returned_breaks {r : Option (State ι × Answer)} {P : State ι → Prop}
    (h : ∀ σ' answer, r = some (σ', answer) → ¬ P σ') :
    ¬ (returned r ≠ .error .undefined ∧ ∀ σ' answer, returned r = .ok (σ', answer) → P σ') := by
  rintro ⟨hinside, hP⟩
  cases r with
  | none => exact hinside rfl
  | some s => exact h s.1 s.2 rfl (hP s.1 s.2 rfl)

theorem share_done {answer : Answer} (h : Good σ) (hy : σ.var y = some c)
    (hshare : σ.share x y = some (σ', answer)) : answer = .done := by
  obtain ⟨n, hn, -⟩ := h.counter_live hy
  by_cases hmax : n = intMax
  · rw [share_max h hy (hmax ▸ hn)] at hshare
    cases hshare
  · obtain ⟨counters, -, heq⟩ := share_eq h hy hn hmax x
    rw [heq] at hshare
    cases hshare
    rfl

/-- No assignment keeps the counters right. -/
theorem assign_breaks (h : Good σ) (hx : σ.var x = some b) (hy : σ.var y = some c) :
    ¬ (noexcept (σ.share x y) ≠ .error .undefined ∧
      ∀ σ' answer, noexcept (σ.share x y) = .ok (σ', answer) → Counted σ') := by
  rintro ⟨hinside, hcounted⟩
  cases hshare : σ.share x y with
  | none =>
      apply hinside
      rw [hshare]
      rfl
  | some s =>
      obtain ⟨σ', answer⟩ := s
      have hdone := share_done h hy hshare
      subst hdone
      apply share_assigned h hx hy hshare
      apply hcounted σ' .done
      rw [hshare]
      rfl

/-- A copy that the counter cannot count is undefined. -/
theorem copy_breaks (h : Good σ) (hy : σ.var y = some c)
    (hmax : σ.counters.cell c.useCount = some intMax) :
    noexcept (σ.share x y) = .error .undefined := by
  rw [share_max h hy hmax]
  rfl

/-- An operation that is not sound breaks the counters, or is undefined. -/
theorem Call.unsound_breaks {k : Call ι} (h : Good σ) (hl : k.Legal σ) (hs : ¬ k.Sound σ) :
    ¬ KeepsCounts σ k := by
  rintro ⟨hinside, hcounted⟩
  cases k with
  | construct x => exact hs trivial
  | constructSize x size => exact hs trivial
  | constructPtrLen x str => exact hs trivial
  | constructStr x str => exact hs trivial
  | destroy x => exact hs trivial
  | copyConstruct x other | moveConstruct x other =>
      simp only [Call.Sound, not_forall, ne_eq, not_not] at hs
      obtain ⟨o, ho, hmax⟩ := hs
      exact hinside (copy_breaks h ho hmax)
  | copyAssign x other | moveAssign x other =>
      obtain ⟨b, hx⟩ := var_some hl.1
      obtain ⟨o, ho⟩ := var_some hl.2
      exact assign_breaks h hx ho ⟨hinside, hcounted⟩
  | append x str =>
      simp only [Call.Sound, not_forall] at hs
      obtain ⟨b, byte, len, hx, hdata, hfits⟩ := hs
      simp only [Call.run, hdata, Option.bind_eq_bind, Option.bind_some] at hinside hcounted
      exact returned_breaks (fun σ' answer => appendPtr_breaks h hx hfits) ⟨hinside, hcounted⟩
  | insert x pos str =>
      simp only [Call.Sound, not_forall] at hs
      obtain ⟨b, byte, len, hx, hdata, hfits⟩ := hs
      simp only [Call.run, hdata, Option.bind_eq_bind, Option.bind_some] at hinside hcounted
      exact returned_breaks (fun σ' answer => insertPtr_breaks h hx hfits) ⟨hinside, hcounted⟩

/-! ## Runs -/

/-- One step of a sound run. -/
theorem soundRuns_good : (soundRuns ι).Inductive Good where
  init := by
    rintro σ rfl
    exact empty_good
  step := by
    rintro σ k σ' h ⟨hl, hs, answer, hrun⟩
    exact (Call.sound_good h hl hs).2 σ' answer hrun

/-- **The counters.** In every state that a run of sound operations reaches the counters
are right, and the counter of a buffer is the number of the variables whose buffer it is.
There an operation keeps them right exactly if it is sound. -/
theorem soundRuns_counted (hσ : (soundRuns ι).Reachable σ) :
    Counted σ ∧
      (∀ x b, σ.var x = some b → b.buffer ≠ null →
        σ.counters.cell b.useCount = some (holders σ.bufferOf b.buffer : Int)) ∧
      ∀ k : Call ι, k.Legal σ → (KeepsCounts σ k ↔ k.Sound σ) := by
  have h := soundRuns_good.invariant σ hσ
  refine ⟨h.counted, fun x b hx hbuffer => h.counted.counts_holders hx hbuffer, ?_⟩
  intro k hl
  constructor
  · intro hkeeps
    by_contra hs
    exact Call.unsound_breaks h hl hs hkeeps
  · intro hs
    obtain ⟨hinside, hgood⟩ := Call.sound_good h hl hs
    exact ⟨hinside, fun σ' answer hrun => (hgood σ' answer hrun).counted⟩

/-- An array of a byte and a copy of it. -/
def arrayAndCopy : State Bool :=
  ((State.empty.constructPtrLen false [7] 1).get rfl).1.copyConstruct true false |>.get rfl |>.1

theorem arrayAndCopy_reachable : (soundRuns Bool).Reachable arrayAndCopy := by
  apply TSys.Reachable.step (e := Call.copyConstruct true false)
  · apply TSys.Reachable.step (e := Call.constructPtrLen false [7]) (.init rfl)
    exact ⟨⟨rfl, by decide⟩, trivial, .done, rfl⟩
  · refine ⟨⟨rfl, nofun⟩, ?_, .done, rfl⟩
    intro o ho
    cases ho
    decide

theorem soundRuns_counted_two :
    Counted arrayAndCopy ∧
      (∀ x b, arrayAndCopy.var x = some b → b.buffer ≠ null →
        arrayAndCopy.counters.cell b.useCount =
          some (holders arrayAndCopy.bufferOf b.buffer : Int)) ∧
      ∀ k : Call Bool, k.Legal arrayAndCopy →
        (KeepsCounts arrayAndCopy k ↔ k.Sound arrayAndCopy) :=
  soundRuns_counted arrayAndCopy_reachable

/-- `b = a` for two arrays with a byte each. -/
def assigned : State Bool :=
  (((State.empty.constructPtrLen false [7] 1).get rfl).1.constructPtrLen true [8] 1 |>.get rfl
    |>.1.copyAssign true false).get rfl |>.1

/-- A byte is appended to a copy of an array with room for sixteen. -/
def detached : State Bool :=
  (((State.empty.constructSize false 16).get rfl).1.copyConstruct true false |>.get rfl
    |>.1.appendPtr true (.bytes [7]) 1).get rfl |>.1

/-- After an assignment a counter that no variable has still counts one, and the buffer it
was for is not freed. After `append` to a copy the two arrays have a counter in common, but
no buffer. -/
theorem counts_break :
    ((runs Bool).Reachable assigned ∧ ∃ p, assigned.counters.cell p = some 1 ∧
      holders assigned.counterOf p = 0) ∧
    (runs Bool).Reachable detached ∧ ¬ ∀ x y b c, detached.var x = some b →
      detached.var y = some c → b.useCount = c.useCount → b.buffer = c.buffer := by
  refine ⟨⟨?_, 2, rfl, rfl⟩, ?_, ?_⟩
  · apply TSys.Reachable.step (e := Call.copyAssign true false)
    · apply TSys.Reachable.step (e := Call.constructPtrLen true [8])
      · apply TSys.Reachable.step (e := Call.constructPtrLen false [7]) (.init rfl)
        exact ⟨⟨rfl, by decide⟩, .done, rfl⟩
      · exact ⟨⟨rfl, by decide⟩, .done, rfl⟩
    · exact ⟨⟨nofun, nofun⟩, .done, rfl⟩
  · apply TSys.Reachable.step (e := Call.append true (.ptr [7]))
    · apply TSys.Reachable.step (e := Call.copyConstruct true false)
      · apply TSys.Reachable.step (e := Call.constructSize false 16) (.init rfl)
        exact ⟨⟨rfl, by decide⟩, .done, rfl⟩
      · exact ⟨⟨rfl, nofun⟩, .done, rfl⟩
    · exact ⟨⟨nofun, (by decide : 1 < uintSize)⟩, .done, rfl⟩
  · intro hsame
    exact absurd (hsame true false _ _ rfl rfl rfl) (by decide)

end LearnSpace.Network
