import LearnSpace.DataStructure.QueueMethods

/-!
# The queue as a deque

From construction on, and as long as `clear` is not called, a queue answers as a
double-ended list does and stays in order. There are two exceptions. `at` with a
negative position, which the guard converts to an unsigned one, passes as soon as the
queue has more than `2 ^ 32 + pos` elements; and a push that no assertion stops counts
the size from `2 ^ 32 - 1` to 0.
-/

namespace LearnSpace.DataStructure.Queue

open Keel Function

variable {T : Type} {h : Heap (Node T)} {q : Queue} {ps : List Ptr} {ts : List T}
  {build : Build}

/-! ## A size that wraps -/

theorem limit_lt (build : Build) : limit build < 2 ^ 32 := by
  cases build <;> decide

theorem count_eq_zero_iff (hts : ts.length ≤ limit build) : count ts = 0 ↔ ts = [] :=
  size_eq_zero_iff (count_toNat (Nat.lt_of_le_of_lt hts (limit_lt build)))

/-- The assertion of a push, as the size and as the number of the elements says it. -/
theorem stops_iff (hts : ts.length ≤ limit build) :
    build.Stops (count ts + 1 ≤ maxSize) ↔ build.Stops (ts.length + 1 ≤ maxSize.toNat) := by
  refine and_congr_right fun hdebug => not_congr ?_
  subst hdebug
  have hcount : (count ts).toNat = ts.length :=
    count_toNat (Nat.lt_of_le_of_lt hts (limit_lt .debug))
  rw [UInt32.le_iff_toNat_le, toNat_succ hcount hts]

/-- As long as the size counts the elements, it does not matter that it can wrap. -/
theorem wrapping_next (hts : ts.length ≤ limit build) (c : Call T) :
    (wrapping build T).next ts c = (deque build T).next ts c := by
  have hlt : ts.length < 2 ^ 32 := Nat.lt_of_le_of_lt hts (limit_lt build)
  have hempty : count ts = 0 ↔ ts = [] := count_eq_zero_iff hts
  cases c with
  | pushBack t | pushBackMove t | pushFront t =>
      simp only [wrapping, deque, stops_iff hts]
  | popBack | popFront | head | tail =>
      by_cases hnil : ts = []
      · subst hnil
        rfl
      · simp only [wrapping, deque, if_neg (mt hempty.mp hnil)]
  | at' pos =>
      by_cases hpos : pos.toInt < 0
      · simp only [wrapping, deque, if_pos hpos, if_pos (Or.inl hpos)]
      · by_cases hout : pos.toUInt32 ≥ count ts
        · have hnone : ts[pos.toInt.toNat]? = none := by
            rw [ge_size_iff (count_toNat hlt), toNat_toUInt32 (Int.not_lt.mp hpos)] at hout
            exact List.getElem?_eq_none hout
          simp only [wrapping, deque, if_neg hpos, if_pos (Or.inr hout), hnone, Option.elim_none]
        · simp only [wrapping, deque, if_neg hpos, if_neg (not_or.mpr ⟨hpos, hout⟩)]
  | size =>
      simp only [wrapping, deque, count_toNat hlt]
  | isEmpty =>
      have hdecide : decide (count ts = 0) = ts.isEmpty := by
        rw [Bool.eq_iff_iff, decide_eq_true_iff, List.isEmpty_iff, hempty]
      simp only [wrapping, deque, hdecide]
  | clear => rfl

/-- One call adds an element at most, and none that the assertion does not let in. -/
theorem deque_length (c : Call T) (hts : ts.length ≤ limit build)
    (hroom : build = .debug ∨ ts.length + 1 < 2 ^ 32) :
    ((deque build T).next ts c).1.length ≤ limit build ∧
      ((deque build T).next ts c).1.length ≤ ts.length + 1 := by
  have hpush : ¬ build.Stops (ts.length + 1 ≤ maxSize.toNat) → ts.length + 1 ≤ limit build := by
    intro hgoes
    rcases hroom with rfl | hroom
    · by_contra hover
      exact hgoes ⟨rfl, hover⟩
    · cases build with
      | debug =>
          by_contra hover
          exact hgoes ⟨rfl, hover⟩
      | release => exact Nat.le_sub_one_of_lt hroom
  cases c with
  | pushBack t | pushBackMove t | pushFront t =>
      by_cases hstops : build.Stops (ts.length + 1 ≤ maxSize.toNat)
      · simp only [deque, if_pos hstops]
        exact ⟨hts, Nat.le_succ _⟩
      · simp only [deque, if_neg hstops, List.length_append, List.length_cons, List.length_nil]
        exact ⟨hpush hstops, Nat.le_refl _⟩
  | popBack | popFront =>
      simp only [deque, List.length_dropLast, List.length_tail]
      omega
  | head | tail | at' pos | size | isEmpty => exact ⟨hts, Nat.le_succ _⟩
  | clear => exact ⟨Nat.zero_le _, Nat.zero_le _⟩

/-- With assertions, or with fewer than `2 ^ 32` calls, the size never wraps. -/
theorem wrapping_run (cs : List (Call T)) (hts : ts.length ≤ limit build)
    (hroom : build = .debug ∨ ts.length + cs.length < 2 ^ 32) :
    (wrapping build T).run ts cs = (deque build T).run ts cs := by
  induction cs generalizing ts with
  | nil => rfl
  | cons c cs ih =>
      rw [List.length_cons] at hroom
      have hlength := deque_length c hts (hroom.imp id fun h => by omega)
      rw [Total.run, Total.run, wrapping_next hts,
        ih hlength.1 (hroom.imp id fun h => by omega)]

/-! ## The calls -/

/-- A position is in reach when it is not negative, or the guard rejects it. -/
def InReach (q : Queue) : Call T → Prop
  | .at' pos => 0 ≤ pos.toInt ∨ q.size ≤ pos.toUInt32
  | _ => True

instance (q : Queue) : ∀ c : Call T, Decidable (InReach q c)
  | .at' pos => inferInstanceAs (Decidable (0 ≤ pos.toInt ∨ q.size ≤ pos.toUInt32))
  | .pushBack _ | .pushBackMove _ | .pushFront _ | .popBack | .popFront | .head | .tail
  | .size | .isEmpty | .clear => .isTrue trivial

/-- A push is countable when an assertion comes before it, or the size does not wrap. -/
def Countable (build : Build) (q : Queue) : Call T → Prop
  | .pushBack _ | .pushBackMove _ | .pushFront _ => build = .debug ∨ q.size + 1 ≠ 0
  | _ => True

instance (build : Build) (q : Queue) : ∀ c : Call T, Decidable (Countable build q c)
  | .pushBack _ | .pushBackMove _ | .pushFront _ =>
    inferInstanceAs (Decidable (build = .debug ∨ q.size + 1 ≠ 0))
  | .popBack | .popFront | .head | .tail | .at' _ | .size | .isEmpty | .clear => .isTrue trivial

theorem Rep.ordered (r : Rep h q ps ts) (hts : ts.length < 2 ^ 32) :
    Ordered h q.head q.tail q.size ps ts :=
  r.linked.ordered (by rw [r.counted, count_toNat hts])

theorem Rep.becomes_self (r : Rep h q ps ts) : Becomes h q ps (h, q) ps ts :=
  ⟨r, rfl, .refl h _⟩

section Calls

variable [Inhabited T]

/-- One call on a queue that holds `ts`. -/
theorem call_spec (r : Rep h q ps ts) {c : Call T} (hc : c ≠ .clear) (hreach : InReach q c) :
    ∃ σ qs, q.call build h c = some (σ, ((wrapping build T).next ts c).2) ∧
      Becomes h q ps σ qs ((wrapping build T).next ts c).1 := by
  cases c with
  | pushBack t | pushBackMove t =>
      by_cases hstops : build.Stops (q.size + 1 ≤ maxSize)
      · refine ⟨(h, q), ps, ?_, ?_⟩ <;> simp only [wrapping, ← r.counted, if_pos hstops]
        · exact (push_full hstops t).1
        · exact r.becomes_self
      · obtain ⟨σ, n, hpush, hb⟩ := pushBack_spec r hstops t
        refine ⟨σ, ps ++ [n], ?_, ?_⟩ <;> simp only [wrapping, ← r.counted, if_neg hstops]
        · exact hpush
        · exact hb
  | pushFront t =>
      by_cases hstops : build.Stops (q.size + 1 ≤ maxSize)
      · refine ⟨(h, q), ps, ?_, ?_⟩ <;> simp only [wrapping, ← r.counted, if_pos hstops]
        · exact (push_full hstops t).2
        · exact r.becomes_self
      · obtain ⟨σ, n, hpush, hb⟩ := pushFront_spec r hstops t
        refine ⟨σ, n :: ps, ?_, ?_⟩ <;> simp only [wrapping, ← r.counted, if_neg hstops]
        · exact hpush
        · exact hb
  | popBack =>
      by_cases hsize : q.size = 0
      · refine ⟨(h, q), ps, ?_, ?_⟩ <;> simp only [wrapping, ← r.counted, if_pos hsize]
        · rw [call, popBack, if_pos hsize]
          rfl
        · exact r.becomes_self
      · obtain ⟨-, xs, a, rfl⟩ := r.ends (r.ne_nil hsize)
        obtain ⟨σ, t, hpop, hlast, hb⟩ := popBack_spec r hsize
        refine ⟨σ, xs, ?_, ?_⟩ <;> simp only [wrapping, ← r.counted, if_neg hsize]
        · rw [call, hpop, hlast, Option.elim_some]
        · exact hb
  | popFront =>
      by_cases hsize : q.size = 0
      · refine ⟨(h, q), ps, ?_, ?_⟩ <;> simp only [wrapping, ← r.counted, if_pos hsize]
        · rw [call, popFront, if_pos hsize]
          rfl
        · exact r.becomes_self
      · obtain ⟨⟨a, ys, rfl⟩, -⟩ := r.ends (r.ne_nil hsize)
        obtain ⟨σ, t, hpop, hfirst, hb⟩ := popFront_spec r hsize
        refine ⟨σ, ys, ?_, ?_⟩ <;> simp only [wrapping, ← r.counted, if_neg hsize]
        · rw [call, hpop, hfirst, Option.elim_some]
        · exact hb
  | head =>
      refine ⟨(h, q), ps, ?_, r.becomes_self⟩
      by_cases hsize : q.size = 0
      · simp only [wrapping, ← r.counted, if_pos hsize]
        rw [call, front, if_pos hsize]
        rfl
      · obtain ⟨⟨a, ys, rfl⟩, -⟩ := r.ends (r.ne_nil hsize)
        obtain ⟨t, hlook, hfirst⟩ := front_spec r hsize
        simp only [wrapping, ← r.counted, if_neg hsize]
        rw [call, hlook, hfirst, Option.elim_some]
  | tail =>
      refine ⟨(h, q), ps, ?_, r.becomes_self⟩
      by_cases hsize : q.size = 0
      · simp only [wrapping, ← r.counted, if_pos hsize]
        rw [call, rear, if_pos hsize]
        rfl
      · obtain ⟨-, xs, a, rfl⟩ := r.ends (r.ne_nil hsize)
        obtain ⟨t, hlook, hlast⟩ := rear_spec r hsize
        simp only [wrapping, ← r.counted, if_neg hsize]
        rw [call, hlook, hlast, Option.elim_some]
  | at' pos =>
      refine ⟨(h, q), ps, ?_, r.becomes_self⟩
      by_cases hout : pos.toUInt32 ≥ q.size
      · simp only [wrapping, ← r.counted, if_pos (Or.inr hout)]
        rw [call, at', if_pos hout]
        rfl
      · have hpos : 0 ≤ pos.toInt := hreach.resolve_right hout
        simp only [wrapping, ← r.counted, if_neg (not_or.mpr ⟨Int.not_lt.mpr hpos, hout⟩)]
        rw [call, at'_spec r hpos hout]
  | size =>
      refine ⟨(h, q), ps, ?_, r.becomes_self⟩
      rw [call, r.counted]
      rfl
  | isEmpty =>
      refine ⟨(h, q), ps, ?_, r.becomes_self⟩
      rw [call, r.counted]
      rfl
  | clear => exact absurd rfl hc

/-- Otherwise a position passes the guard that should be rejected. -/
theorem call_out_of_reach {c : Call T} (hreach : ¬ InReach q c) : q.call build h c = none := by
  cases c with
  | at' pos =>
      rw [InReach, not_or, Int.not_le, UInt32.not_le] at hreach
      exact at'_negative hreach.1 hreach.2
  | _ => exact absurd trivial hreach

/-- A queue whose size counts its elements. -/
structure Counted (build : Build) (σ : State T) (ps : List Ptr) (ts : List T) : Prop where
  rep : Rep σ.1 σ.2 ps ts
  within : ts.length ≤ limit build

omit [Inhabited T] in
theorem Counted.ordered {σ : State T} (r : Counted build σ ps ts) :
    Ordered σ.1 σ.2.head σ.2.tail σ.2.size ps ts :=
  r.rep.ordered (Nat.lt_of_le_of_lt r.within (limit_lt build))

omit [Inhabited T] in
/-- A push is countable when it does not take the number of the elements to `2 ^ 32`. -/
theorem Counted.countable_iff {σ : State T} (r : Counted build σ ps ts) (t : T) :
    Countable build σ.2 (.pushBack t) ↔ build = .debug ∨ ts.length + 1 < 2 ^ 32 := by
  refine or_congr_right ?_
  have hlt : ts.length < 2 ^ 32 := Nat.lt_of_le_of_lt r.within (limit_lt build)
  rw [r.rep.counted, Ne, eq_zero_iff_toNat, UInt32.toNat_add, count_toNat hlt, UInt32.toNat_one]
  omega

/-- A call that is in reach and countable does to the queue what it does to the list. -/
theorem Counted.call_spec {σ : State T} (r : Counted build σ ps ts) {c : Call T}
    (hc : c ≠ .clear) (hreach : InReach σ.2 c) (hcount : Countable build σ.2 c) :
    ∃ σ' qs, (queue build T).exec σ c = some (σ', ((deque build T).next ts c).2) ∧
      Counted build σ' qs ((deque build T).next ts c).1 := by
  obtain ⟨σ', qs, hcall, hb⟩ := Queue.call_spec r.rep hc hreach
  rw [wrapping_next r.within] at hcall hb
  refine ⟨σ', qs, hcall, hb.rep, ?_⟩
  cases c with
  | pushBack t | pushBackMove t | pushFront t =>
      exact (deque_length _ r.within ((r.countable_iff t).mp hcount)).1
  | popBack | popFront =>
      simp only [deque, List.length_dropLast, List.length_tail]
      exact Nat.le_trans (Nat.sub_le _ _) r.within
  | head | tail | at' pos | size | isEmpty => exact r.within
  | clear => exact Nat.zero_le _

/-- The calls of the deque, each in reach and countable when it is made. -/
def Proper (build : Build) (σ : State T) (c : Call T) : Prop :=
  c ≠ .clear ∧ InReach σ.2 c ∧ Countable build σ.2 c

instance [DecidableEq T] (build : Build) (σ : State T) (c : Call T) :
    Decidable (Proper build σ c) :=
  inferInstanceAs (Decidable (c ≠ .clear ∧ InReach σ.2 c ∧ Countable build σ.2 c))

variable (T) in
theorem refines_deque (build : Build) :
    (queue build T).Refines (Proper build) (deque build T)
      (fun σ ts => ∃ ps, Counted build σ ps ts) where
  start := ⟨[], construct_rep .empty, Nat.zero_le _⟩
  exec := by
    rintro σ ts c ⟨ps, r⟩ ⟨hc, hreach, hcount⟩
    obtain ⟨σ', qs, hcall, r'⟩ := r.call_spec hc hreach hcount
    exact ⟨σ', hcall, qs, r'⟩

/-- One call does to `σ` what it does to the list `ts`, and leaves the queue in order. -/
def Agrees (build : Build) (σ : State T) (ts : List T) (c : Call T) : Prop :=
  ∃ σ' qs, (queue build T).exec σ c = some (σ', ((deque build T).next ts c).2) ∧
    Ordered σ'.1 σ'.2.head σ'.2.tail σ'.2.size qs ((deque build T).next ts c).1

/-- A push that is not countable leaves more elements than the size can say. -/
theorem Agrees.countable {σ : State T} {c : Call T} (r : Counted build σ ps ts)
    (hagrees : Agrees build σ ts c) : Countable build σ.2 c := by
  obtain ⟨σ', qs, -, hordered⟩ := hagrees
  have hsize := hordered.size
  have hlt : σ'.2.size.toNat < 2 ^ 32 := UInt32.toNat_lt _
  cases c with
  | pushBack t | pushBackMove t | pushFront t =>
      refine (r.countable_iff t).mpr ?_
      cases build with
      | debug => exact .inl rfl
      | release =>
          right
          rw [hsize] at hlt
          simpa [deque, Build.Stops] using hlt
  | _ => trivial

/-- **The queue as a deque.** A run of calls that are in reach and countable never leaves
the nodes, answers as the deque does and ends in a queue in order; and the next call agrees
with the deque exactly when it is in reach and countable. -/
theorem deque_iff (build : Build) (cs : List (Call T))
    (hobeys : (queue build T).Obeys (Proper build) (queue build T).start cs) :
    ∃ σ ps, (queue build T).run (queue build T).start cs =
        some (σ, ((deque build T).run [] cs).2) ∧
      Ordered σ.1 σ.2.head σ.2.tail σ.2.size ps ((deque build T).run [] cs).1 ∧
      ∀ c, c ≠ .clear →
        (Agrees build σ ((deque build T).run [] cs).1 c ↔
          InReach σ.2 c ∧ Countable build σ.2 c) := by
  obtain ⟨σ, hrun, ps, r⟩ := (refines_deque T build).run cs hobeys
  refine ⟨σ, ps, hrun, r.ordered, fun c hc => ⟨fun hagrees => ⟨?_, hagrees.countable r⟩, ?_⟩⟩
  · obtain ⟨σ', qs, hcall, -⟩ := hagrees
    by_contra hreach
    have hnone : (queue build T).exec σ c = none := call_out_of_reach hreach
    rw [hnone] at hcall
    cases hcall
  · rintro ⟨hreach, hcount⟩
    obtain ⟨σ', qs, hcall, r'⟩ := r.call_spec hc hreach hcount
    exact ⟨σ', qs, hcall, r'.ordered⟩

end Calls

/-- Elements in and out at both ends, and positions on either side of the queue. -/
theorem deque_iff_both_ends :
    ∃ σ ps, (queue .release Nat).run (queue .release Nat).start
        [.pushBack 1, .pushFront 2, .pushBackMove 3, .popBack, .at' 1, .at' (-1), .popFront,
          .tail] =
          some (σ, [.done, .done, .done, .value 3, .value 1, .outOfRange, .value 2, .value 1]) ∧
      Ordered σ.1 σ.2.head σ.2.tail σ.2.size ps [1] ∧
      ∀ c, c ≠ .clear →
        (Agrees .release σ [1] c ↔ InReach σ.2 c ∧ Countable .release σ.2 c) :=
  deque_iff .release [.pushBack 1, .pushFront 2, .pushBackMove 3, .popBack, .at' 1, .at' (-1),
    .popFront, .tail] (by decide +kernel)

/-! ## A position that is negative and in range -/

/-- Pushes of one element, as long as there is room. -/
theorem deque_pushes (build : Build) (t : T) :
    ∀ (n : Nat) (ts : List T), ts.length + n ≤ maxSize.toNat →
      (deque build T).run ts (List.replicate n (.pushBack t)) =
        (ts ++ List.replicate n t, List.replicate n .done) := by
  intro n
  induction n with
  | zero =>
      intro ts _
      rw [List.replicate_zero, List.replicate_zero, List.append_nil]
      rfl
  | succ n ih =>
      intro ts hroom
      have hgoes : ¬ build.Stops (ts.length + 1 ≤ maxSize.toNat) := fun hstops =>
        hstops.2 (by omega)
      have hpush : (deque build T).next ts (.pushBack t) = (ts ++ [t], .done) := if_neg hgoes
      have hrest := ih (ts ++ [t]) (by rw [List.length_append, List.length_singleton]; omega)
      rw [List.replicate_succ, Total.run, hpush]
      simp only [hrest]
      rw [List.append_assoc, List.replicate_succ, List.replicate_succ]
      rfl

theorem obeys_pushes [Inhabited T] (t : T) (n : Nat) (σ : State T) :
    (queue .debug T).Obeys (Proper .debug) σ (List.replicate n (.pushBack t)) := by
  refine (queue .debug T).obeys_of_forall ?_ σ
  intro c hc σ
  rw [List.eq_of_mem_replicate hc]
  exact ⟨nofun, trivial, .inl rfl⟩

/-- With one element more than `2 ^ 31` the smallest `int` passes the guard. -/
theorem at_min_passes_guard :
    ∃ σ, (queue .debug Nat).run (queue .debug Nat).start
          (List.replicate 2147483649 (.pushBack 7)) =
        some (σ, List.replicate 2147483649 .done) ∧
      (queue .debug Nat).exec σ (.at' Int32.minValue) = none ∧
      ((deque .debug Nat).next (List.replicate 2147483649 7) (.at' Int32.minValue)).2 =
        .outOfRange := by
  obtain ⟨σ, hrun, ps, r⟩ := (refines_deque Nat .debug).run _ (obeys_pushes 7 2147483649 _)
  have hdeque := deque_pushes .debug 7 2147483649 [] (by decide)
  refine ⟨σ, ?_, at'_negative (by decide) ?_, rfl⟩
  · rw [hrun]
    exact congrArg (fun r => some (σ, r.2)) hdeque
  · have hcount := r.ordered.size
    have hstart : (deque .debug Nat).start = [] := rfl
    rw [hstart, hdeque, List.nil_append, List.length_replicate] at hcount
    rw [UInt32.lt_iff_toNat_lt, hcount]
    decide

end LearnSpace.DataStructure.Queue
