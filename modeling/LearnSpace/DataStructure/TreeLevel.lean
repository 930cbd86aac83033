import LearnSpace.DataStructure.QueueDelete
import LearnSpace.DataStructure.TreeTraversal

/-!
# The traversal level by level

`levelTraversal` serves the nodes of a queue in turn, and a node leaves its valid children
behind it. At any time the queue holds what is left of one level and the children of what
is gone of it, so a level that was served whole has become the next one (`waiting_level`).
Which nodes are served is a matter of the queue alone. Whether they are all visited depends
on the visitor, which may ask to stop, and on how many nodes can wait at a time: the
assertion in `pushBack` bounds it, and without assertions the size of `2 ^ 32` nodes is 0,
at which the loop ends.
-/

namespace LearnSpace.DataStructure.Tree

open Keel

variable {T S W : Type}

/-! ## Levels -/

/-- The valid children of a node. -/
def children : Tree T → List (Tree T)
  | .invalid => []
  | .node left _ right => entry left ++ entry right

theorem length_children_le (t : Tree T) : (children t).length ≤ 2 := by
  cases t with
  | invalid => exact Nat.zero_le 2
  | node left data right =>
      rw [children, List.length_append]
      exact Nat.add_le_add (length_entry_le_one left) (length_entry_le_one right)

/-- The valid nodes at a depth, from left to right. -/
def atDepth : Nat → Tree T → List (Tree T)
  | _, .invalid => []
  | 0, .node left data right => [.node left data right]
  | n + 1, .node left _ right => atDepth n left ++ atDepth n right

/-- How many levels there are. -/
def height : Tree T → Nat
  | .invalid => 0
  | .node left _ right => max (height left) (height right) + 1

/-- The nodes above a depth, level by level. -/
def above (n : Nat) (t : Tree T) : List (Tree T) := (List.range n).flatMap (atDepth · t)

/-- The data by increasing depth, from left to right within a depth. -/
def breadthFirst (t : Tree T) : List T := (above (height t) t).flatMap label

theorem atDepth_zero (t : Tree T) : atDepth 0 t = entry t := by
  cases t <;> rfl

theorem atDepth_succ (t : Tree T) :
    ∀ n, atDepth (n + 1) t = (atDepth n t).flatMap children := by
  induction t with
  | invalid =>
      intro n
      cases n <;> rfl
  | node left data right ihl ihr =>
      intro n
      cases n with
      | zero =>
          show atDepth 0 left ++ atDepth 0 right = _
          rw [atDepth_zero, atDepth_zero, atDepth, List.flatMap_singleton, children]
      | succ n => rw [atDepth, ihl, ihr, atDepth, List.flatMap_append]

theorem atDepth_height (t : Tree T) : ∀ n, height t ≤ n → atDepth n t = [] := by
  induction t with
  | invalid =>
      intro n _
      cases n <;> rfl
  | node left data right ihl ihr =>
      intro n hn
      rw [height] at hn
      cases n with
      | zero => omega
      | succ n => rw [atDepth, ihl n (by omega), ihr n (by omega), List.append_nil]

theorem above_succ (n : Nat) (t : Tree T) : above (n + 1) t = above n t ++ atDepth n t := by
  rw [above, List.range_succ, List.flatMap_append, List.flatMap_singleton, above]

/-! ## A queue of nodes -/

/-- The queue after `n` nodes were served. -/
def waiting : Nat → List (Tree T) → List (Tree T)
  | 0, ts => ts
  | _ + 1, [] => []
  | n + 1, t :: ts => waiting n (ts ++ children t)

/-- The first `n` nodes that are served. -/
def served : Nat → List (Tree T) → List (Tree T)
  | 0, _ => []
  | _ + 1, [] => []
  | n + 1, t :: ts => t :: served n (ts ++ children t)

theorem waiting_nil (n : Nat) : waiting n ([] : List (Tree T)) = [] := by
  cases n <;> rfl

theorem served_nil (n : Nat) : served n ([] : List (Tree T)) = [] := by
  cases n <;> rfl

theorem waiting_invalid (n : Nat) (ts : List (Tree T)) :
    waiting (n + 1) (.invalid :: ts) = waiting n ts := by
  rw [waiting, children, List.append_nil]

theorem labels_invalid (n : Nat) (ts : List (Tree T)) :
    (served (n + 1) (.invalid :: ts)).flatMap label = (served n ts).flatMap label := by
  rw [served, children, List.append_nil, List.flatMap_cons, label, List.nil_append]

theorem labels_node (n : Nat) (left right : Tree T) (data : T) (ts : List (Tree T)) :
    (served (n + 1) (.node left data right :: ts)).flatMap label =
      data :: (served n (ts ++ children (.node left data right))).flatMap label := by
  rw [served, List.flatMap_cons, label, List.singleton_append]

theorem waiting_add (m n : Nat) :
    ∀ ts : List (Tree T), waiting (m + n) ts = waiting n (waiting m ts) := by
  induction m with
  | zero =>
      intro ts
      rw [Nat.zero_add, waiting]
  | succ m ih =>
      intro ts
      cases ts with
      | nil => rw [waiting_nil, waiting_nil, waiting_nil]
      | cons t ts => rw [Nat.succ_add, waiting, ih, waiting]

theorem served_add (m n : Nat) :
    ∀ ts : List (Tree T), served (m + n) ts = served m ts ++ served n (waiting m ts) := by
  induction m with
  | zero =>
      intro ts
      rw [Nat.zero_add, served, waiting, List.nil_append]
  | succ m ih =>
      intro ts
      cases ts with
      | nil => rw [served_nil, served_nil, waiting_nil, served_nil, List.append_nil]
      | cons t ts => rw [Nat.succ_add, served, ih, served, waiting, List.cons_append]

/-- What is in front is served and leaves its children at the end. -/
theorem waiting_level (xs : List (Tree T)) :
    ∀ ys, waiting xs.length (xs ++ ys) = ys ++ xs.flatMap children := by
  induction xs with
  | nil =>
      intro ys
      exact (List.append_nil ys).symm
  | cons x xs ih =>
      intro ys
      rw [List.length_cons, List.cons_append, waiting, List.append_assoc, ih, List.append_assoc,
        List.flatMap_cons]

theorem served_level (xs : List (Tree T)) : ∀ ys, served xs.length (xs ++ ys) = xs := by
  induction xs with
  | nil => exact fun _ => rfl
  | cons x xs ih =>
      intro ys
      rw [List.length_cons, List.cons_append, served, List.append_assoc, ih]

/-- The nodes above a depth are served before the ones at it, which then wait. -/
theorem served_above (t : Tree T) (n : Nat) :
    served (above n t).length (entry t) = above n t ∧
      waiting (above n t).length (entry t) = atDepth n t := by
  induction n with
  | zero => exact ⟨rfl, (atDepth_zero t).symm⟩
  | succ n ih =>
      have hserved := served_level (atDepth n t) []
      have hwaiting := waiting_level (atDepth n t) []
      rw [List.append_nil] at hserved hwaiting
      constructor
      · rw [above_succ, List.length_append, served_add, ih.1, ih.2, hserved]
      · rw [above_succ, List.length_append, waiting_add, ih.2, hwaiting, List.nil_append,
          atDepth_succ]

/-- Nodes that are not valid do not get into the queue. -/
theorem waiting_valid (n : Nat) :
    ∀ {ts : List (Tree T)}, (∀ t ∈ ts, t.valid = true) →
      ∀ t ∈ waiting n ts, t.valid = true := by
  induction n with
  | zero => exact fun hts => hts
  | succ n ih =>
      intro ts hts
      cases ts with
      | nil => exact nofun
      | cons t ts =>
          rw [waiting]
          refine ih fun u hu => ?_
          rcases List.mem_append.mp hu with hu | hu
          · exact hts u (List.mem_cons_of_mem t hu)
          · cases t with
            | invalid => cases hu
            | node left data right =>
                rcases List.mem_append.mp hu with hu | hu
                · exact entry_valid left u hu
                · exact entry_valid right u hu

/-- All nodes are served, level by level, and then none waits. -/
theorem served_all (t : Tree T) :
    ∃ n, (served n (entry t)).flatMap label = breadthFirst t ∧ waiting n (entry t) = [] := by
  obtain ⟨hserved, hwaiting⟩ := served_above t (height t)
  refine ⟨_, ?_, hwaiting.trans (atDepth_height t _ (Nat.le_refl _))⟩
  rw [hserved, breadthFirst]

/-- A node that waits after `k` others is the next one to be served. -/
theorem next_served {t : Tree T} {k : Nat} (hwaits : waiting k (entry t) ≠ []) :
    ∃ d ds, breadthFirst t = (served k (entry t)).flatMap label ++ d :: ds := by
  obtain ⟨u, us, hus⟩ := List.exists_cons_of_ne_nil hwaits
  have hu : u.valid = true := waiting_valid k (entry_valid t) u (hus ▸ List.mem_cons_self)
  obtain ⟨n, hserved, hwaiting⟩ := served_all t
  have hlt : k < n := by
    by_contra hle
    obtain ⟨j, rfl⟩ := Nat.exists_eq_add_of_le (Nat.not_lt.mp hle)
    exact hwaits (by rw [waiting_add, hwaiting, waiting_nil])
  obtain ⟨m, rfl⟩ := Nat.exists_eq_add_of_lt hlt
  cases u with
  | invalid => cases hu
  | node left d right =>
      rw [Nat.add_assoc, served_add, hus, List.flatMap_append, labels_node] at hserved
      exact ⟨d, _, hserved.symm⟩

/-! ## Statements on the local queue -/

/-- The queue that is a local variable holds `ts`. -/
def Queued (σ : Queue.State (Tree T)) (ts : List (Tree T)) : Prop :=
  ∃ ps, Queue.Rep σ.1 σ.2 ps ts

namespace Queued

variable {σ : Queue.State (Tree T)} {ts : List (Tree T)} {build : Build}

theorem constructed : Queued (Queue.construct (Heap.empty : Heap (Node (Tree T)))) [] :=
  ⟨[], Queue.construct_rep .empty⟩

theorem counted (r : Queued σ ts) : σ.2.size = Queue.count ts := by
  obtain ⟨ps, r⟩ := r
  exact r.counted

/-- The loop ends at a queue without nodes, if the size counts them. -/
theorem isEmpty (r : Queued σ ts) (hts : ts.length ≤ Queue.limit build) :
    σ.2.size = 0 ↔ ts = [] := by
  rw [r.counted, Queue.count_eq_zero_iff hts]

theorem enqueue_spec (r : Queued σ ts) (hroom : build = .debug → ts.length + 1 ≤ maxSize.toNat)
    (t : Tree T) : ∃ σ', enqueue build σ t = some σ' ∧ Queued σ' (ts ++ [t]) := by
  obtain ⟨ps, r⟩ := r
  have hgoes : ¬ build.Stops (σ.2.size + 1 ≤ maxSize) := by
    intro hstops
    obtain rfl := hstops.1
    have hone := hroom rfl
    rw [r.counted, Queue.stops_iff (Nat.le_of_succ_le hone)] at hstops
    exact hstops.2 hone
  obtain ⟨σ', n, hpush, hb⟩ := Queue.pushBack_spec r hgoes t
  refine ⟨σ', ?_, _, hb.rep⟩
  simp only [enqueue, hpush, Option.bind_eq_bind, Option.bind_some, Option.pure_def]

theorem enqueue_none (r : Queued σ ts) (hts : ts.length ≤ maxSize.toNat)
    (hfull : ¬ ts.length + 1 ≤ maxSize.toNat) (t : Tree T) : enqueue .debug σ t = none := by
  obtain ⟨ps, r⟩ := r
  have hstops : Build.debug.Stops (σ.2.size + 1 ≤ maxSize) := by
    rw [r.counted, Queue.stops_iff hts]
    exact ⟨rfl, hfull⟩
  simp only [enqueue, (Queue.push_full hstops t).1, Option.bind_eq_bind, Option.bind_some]

theorem dequeue_spec {t : Tree T} (r : Queued σ (t :: ts)) (hsize : σ.2.size ≠ 0) :
    ∃ σ', dequeue σ = some (σ', t) ∧ Queued σ' ts := by
  obtain ⟨ps, r⟩ := r
  cases ps with
  | nil => cases r.linked.length_eq
  | cons p ps =>
      obtain ⟨σ', u, hpop, hu, hb⟩ := Queue.popFront_spec r hsize
      obtain rfl := Option.some.inj hu
      refine ⟨σ', ?_, ps, hb.rep⟩
      simp only [dequeue, hpop, Option.bind_eq_bind, Option.bind_some, Option.pure_def]

/-- A child is enqueued if it is valid. -/
theorem enqueueEntry_spec (r : Queued σ ts) (t : Tree T)
    (hroom : build = .debug → ts.length + (entry t).length ≤ maxSize.toNat) :
    ∃ σ', (if t.valid then enqueue build σ t else some σ) = some σ' ∧
      Queued σ' (ts ++ entry t) := by
  cases t with
  | invalid =>
      rw [entry, List.append_nil]
      exact ⟨σ, rfl, r⟩
  | node left data right => exact r.enqueue_spec hroom _

theorem enqueueEntry_none (r : Queued σ ts) (hts : ts.length ≤ maxSize.toNat) (t : Tree T)
    (hfull : ¬ ts.length + (entry t).length ≤ maxSize.toNat) :
    (if t.valid then enqueue .debug σ t else some σ) = none := by
  cases t with
  | invalid => exact absurd hts hfull
  | node left data right => exact r.enqueue_none hts hfull _

theorem destroy_spec (r : Queued σ ts) : ∃ h, σ.2.destroy σ.1 = some h := by
  obtain ⟨ps, r⟩ := r
  have hclear : Queue.Clearable σ := by
    cases ps with
    | nil => exact .inr r.linked.chain.first
    | cons p ps => exact .inl (mt r.linked.tail_eq_null_iff.mp (List.cons_ne_nil p ps))
  obtain ⟨h, hdestroy, -⟩ := Queue.destroy_deletes (.inl r) hclear
  exact ⟨h, hdestroy⟩

end Queued

/-! ## The visitor on a sequence -/

/-- None of the calls on `ds` asks to stop. -/
def Passes (visitor : Visitor T S W) : S × W → List T → Prop
  | _, [] => True
  | q, d :: ds => (visitor q.1 q.2 d).1 = false ∧ Passes visitor (visitor q.1 q.2 d).2 ds

/-- The calls on `ds` up to the first one that asks to stop. -/
def callsUntilStop (visitor : Visitor T S W) : S × W → List T → List (T × Bool)
  | _, [] => []
  | q, d :: ds =>
    let called := visitor q.1 q.2 d
    (d, called.1) :: if called.1 then [] else callsUntilStop visitor called.2 ds

/-- The world after the calls on `ds` up to the first one that asks to stop. -/
def visitedUntilStop (visitor : Visitor T S W) : S × W → List T → W
  | q, [] => q.2
  | q, d :: ds =>
    let called := visitor q.1 q.2 d
    if called.1 then called.2.2 else visitedUntilStop visitor called.2 ds

section Visited

variable {visitor : Visitor T S W} {q : S × W} {d : T}

theorem visitedUntilStop_stops (hcalled : (visitor q.1 q.2 d).1 = true) (ds : List T) :
    visitedUntilStop visitor q (d :: ds) = (visitor q.1 q.2 d).2.2 := by
  simp only [visitedUntilStop, hcalled, if_true]

theorem visitedUntilStop_goes (hcalled : (visitor q.1 q.2 d).1 = false) (ds : List T) :
    visitedUntilStop visitor q (d :: ds) =
      visitedUntilStop visitor (visitor q.1 q.2 d).2 ds := by
  simp only [visitedUntilStop, hcalled, Bool.false_eq_true, if_false]

end Visited

/-- The calls are those on the longest prefix of `ds` in which nothing comes after a stop. -/
theorem callsUntilStop_spec (visitor : Visitor T S W) (ds : List T) :
    ∀ q : S × W, (callsUntilStop visitor q ds).map Prod.fst <+: ds ∧
      StopsAtOnce (callsUntilStop visitor q ds) ∧
      ((∀ call ∈ callsUntilStop visitor q ds, call.2 = false) →
        (callsUntilStop visitor q ds).map Prod.fst = ds) := by
  induction ds with
  | nil => exact fun q => ⟨List.nil_prefix, .nil, fun _ => rfl⟩
  | cons d ds ih =>
      intro q
      rw [callsUntilStop]
      cases hcalled : (visitor q.1 q.2 d).1 with
      | true =>
          refine ⟨⟨ds, rfl⟩, List.pairwise_singleton _ _, fun hgo => ?_⟩
          exact absurd (hgo (d, true) List.mem_cons_self) nofun
      | false =>
          obtain ⟨hinitial, hstops, hwhole⟩ := ih (visitor q.1 q.2 d).2
          refine ⟨List.cons_prefix_cons.mpr ⟨rfl, hinitial⟩, .cons (fun _ _ => rfl) hstops, ?_⟩
          intro hgo
          exact congrArg (d :: ·) (hwhole fun call hc => hgo call (List.mem_cons_of_mem _ hc))

/-- What a record of the calls has gained. -/
theorem visitedUntilStop_recorded (visitor : Visitor T S W) (ds : List T) :
    ∀ (s : S) (w : W) (calls : List (T × Bool)),
      (visitedUntilStop (recorded visitor) (s, w, calls) ds).2 =
        calls ++ callsUntilStop visitor (s, w) ds := by
  induction ds with
  | nil =>
      intro s w calls
      exact (List.append_nil calls).symm
  | cons d ds ih =>
      intro s w calls
      rw [visitedUntilStop, callsUntilStop]
      by_cases hcalled : (visitor s w d).1
      · simp only [recorded, hcalled, if_true]
      · have hrest := ih (visitor s w d).2.1 (visitor s w d).2.2 (calls ++ [(d, false)])
        rw [Bool.not_eq_true] at hcalled
        simp only [recorded, hcalled, Bool.false_eq_true, if_false, hrest, List.append_assoc,
          List.cons_append, List.nil_append]

/-- Where none of the calls asks to stop, the next one is made. -/
theorem callsUntilStop_append_ne {visitor : Visitor T S W} (d : T) (ds' : List T) (ds : List T) :
    ∀ q : S × W, Passes visitor q ds →
      callsUntilStop visitor q (ds ++ d :: ds') ≠ callsUntilStop visitor q ds := by
  induction ds with
  | nil =>
      intro q _
      exact List.cons_ne_nil _ _
  | cons d ds ih =>
      intro q hpasses
      rw [List.cons_append, callsUntilStop, callsUntilStop]
      simp only [hpasses.1, Bool.false_eq_true, if_false]
      exact fun he => ih _ hpasses.2 (List.cons.inj he).2

theorem passes_recorded (visitor : Visitor T S W) (ds : List T) :
    ∀ (s : S) (w : W) (calls : List (T × Bool)),
      Passes (recorded visitor) (s, w, calls) ds ↔ Passes visitor (s, w) ds := by
  induction ds with
  | nil => exact fun _ _ _ => Iff.rfl
  | cons d ds ih => exact fun s w calls => and_congr_right fun _ => ih ..

/-! ## The loop -/

section Loop

variable {visitor : Visitor T S W} {σ : Queue.State (Tree T)} {ts : List (Tree T)}
  {build : Build}

/-- The queue can count what is enqueued as long as the visitor does not ask to stop. -/
def Fits (build : Build) (visitor : Visitor T S W) (ts : List (Tree T)) (q : S × W) : Prop :=
  ∀ n, Passes visitor q ((served n ts).flatMap label) →
    (waiting n ts).length ≤ Queue.limit build

theorem Fits.length_le {q : S × W} (hfits : Fits build visitor ts q) :
    ts.length ≤ Queue.limit build :=
  hfits 0 trivial

variable (visitor) in
/-- An iteration that finds a node that is not valid. -/
theorem levelBody_invalid (r : Queued σ (.invalid :: ts)) (hsize : σ.2.size ≠ 0) (q : S × W) :
    ∃ σ', levelBody build visitor (σ, q) = some (.inl (σ', q)) ∧ Queued σ' ts := by
  obtain ⟨σ', hdequeue, r'⟩ := r.dequeue_spec hsize
  refine ⟨σ', ?_, r'⟩
  simp only [levelBody, hsize, hdequeue, if_false, Option.bind_eq_bind, Option.bind_some,
    Option.pure_def]

variable (build visitor) in
/-- An iteration that finds the size 0. -/
theorem levelBody_leave (hsize : σ.2.size = 0) (q : S × W) :
    levelBody build visitor (σ, q) = some (.inr (σ, q.2)) := by
  simp only [levelBody, hsize, if_true, Option.pure_def]

section Node

variable {left right : Tree T} {data : T} {q : S × W}

/-- An iteration whose visit goes on: the valid children are enqueued. -/
theorem levelBody_node (r : Queued σ (.node left data right :: ts)) (hsize : σ.2.size ≠ 0)
    (hcalled : (visitor q.1 q.2 data).1 = false)
    (hroom : build = .debug →
      (ts ++ children (.node left data right)).length ≤ maxSize.toNat) :
    ∃ σ', levelBody build visitor (σ, q) = some (.inl (σ', (visitor q.1 q.2 data).2)) ∧
      Queued σ' (ts ++ children (.node left data right)) := by
  rw [children, ← List.append_assoc] at hroom ⊢
  rw [List.length_append] at hroom
  obtain ⟨σ1, hdequeue, r1⟩ := r.dequeue_spec hsize
  have hroom1 : build = .debug → ts.length + (entry left).length ≤ maxSize.toNat := by
    intro hdebug
    have hle := hroom hdebug
    rw [List.length_append] at hle
    omega
  obtain ⟨σ2, hleft, r2⟩ := r1.enqueueEntry_spec left hroom1
  obtain ⟨σ3, hright, r3⟩ := r2.enqueueEntry_spec right hroom
  refine ⟨σ3, ?_, r3⟩
  simp only [levelBody, hsize, hdequeue, hcalled, hleft, hright, if_false, Bool.false_eq_true,
    Option.bind_eq_bind, Option.bind_some, Option.pure_def]

/-- An iteration whose visit asks to stop. -/
theorem levelBody_stop (r : Queued σ (.node left data right :: ts)) (hsize : σ.2.size ≠ 0)
    (hcalled : (visitor q.1 q.2 data).1 = true) :
    ∃ σ', levelBody build visitor (σ, q) = some (.inr (σ', (visitor q.1 q.2 data).2.2)) ∧
      Queued σ' ts := by
  obtain ⟨σ', hdequeue, r'⟩ := r.dequeue_spec hsize
  refine ⟨σ', ?_, r'⟩
  simp only [levelBody, hsize, hdequeue, hcalled, if_false, if_true, Option.bind_eq_bind,
    Option.bind_some, Option.pure_def]

/-- An iteration in which the assertion of a push fails. -/
theorem levelBody_full (r : Queued σ (.node left data right :: ts)) (hsize : σ.2.size ≠ 0)
    (hts : ts.length ≤ maxSize.toNat) (hcalled : (visitor q.1 q.2 data).1 = false)
    (hfull : ¬ (ts ++ children (.node left data right)).length ≤ maxSize.toNat) :
    levelBody .debug visitor (σ, q) = none := by
  rw [children, ← List.append_assoc, List.length_append] at hfull
  obtain ⟨σ1, hdequeue, r1⟩ := r.dequeue_spec hsize
  have hbody : levelBody .debug visitor (σ, q) =
      (if left.valid then enqueue .debug σ1 left else some σ1).bind
      fun σ2 => (if right.valid then enqueue .debug σ2 right else some σ2).bind
        fun σ3 => some (.inl (σ3, (visitor q.1 q.2 data).2)) := by
    simp only [levelBody, hsize, hdequeue, hcalled, if_false, Bool.false_eq_true,
      Option.bind_eq_bind, Option.bind_some, Option.pure_def]
  rw [hbody]
  by_cases hroom : ts.length + (entry left).length ≤ maxSize.toNat
  · obtain ⟨σ2, hleft, r2⟩ := r1.enqueueEntry_spec left fun _ => hroom
    have hle : (ts ++ entry left).length ≤ maxSize.toNat := by rwa [List.length_append]
    rw [hleft, Option.bind_some, r2.enqueueEntry_none hle right hfull, Option.bind_none]
  · rw [r1.enqueueEntry_none hts left hroom, Option.bind_none]

end Node

/-- A node in the queue keeps the loop going. -/
theorem Queued.size_ne_zero {t : Tree T} (r : Queued σ (t :: ts))
    (hts : (t :: ts).length ≤ Queue.limit build) : σ.2.size ≠ 0 :=
  mt (r.isEmpty hts).mp (List.cons_ne_nil t ts)

/-- The loop visits what is served, up to the first stop. -/
theorem level_ends (n : Nat) :
    ∀ {σ : Queue.State (Tree T)} {ts : List (Tree T)} {q : S × W}, Queued σ ts →
      waiting n ts = [] → Fits build visitor ts q →
      ∃ fuel σ' us, Fuel.loop (levelBody build visitor) fuel (σ, q) =
        some (σ', visitedUntilStop visitor q ((served n ts).flatMap label)) ∧ Queued σ' us := by
  induction n with
  | zero =>
      intro σ ts q r hwaiting hfits
      have hsize : σ.2.size = 0 := (r.isEmpty hfits.length_le).mpr hwaiting
      exact ⟨1, σ, ts, Fuel.loop_leave (levelBody_leave visitor build hsize q) 0, r⟩
  | succ n ih =>
      intro σ ts q r hwaiting hfits
      cases ts with
      | nil =>
          have hsize : σ.2.size = 0 := r.counted
          exact ⟨1, σ, [], Fuel.loop_leave (levelBody_leave visitor build hsize q) 0, r⟩
      | cons t ts =>
          have hsize := r.size_ne_zero hfits.length_le
          cases t with
          | invalid =>
              obtain ⟨σ1, hbody, r1⟩ := levelBody_invalid visitor r hsize q
              rw [waiting_invalid] at hwaiting
              have hfits1 : Fits build visitor ts q := by
                intro m hpasses
                have hroom := hfits (m + 1)
                rw [labels_invalid, waiting_invalid] at hroom
                exact hroom hpasses
              obtain ⟨fuel, σ', us, hloop, r'⟩ := ih r1 hwaiting hfits1
              refine ⟨fuel + 1, σ', us, ?_, r'⟩
              rw [Fuel.loop_next hbody, hloop, labels_invalid]
          | node left data right =>
              cases hcalled : (visitor q.1 q.2 data).1 with
              | true =>
                  obtain ⟨σ1, hbody, r1⟩ := levelBody_stop r hsize hcalled
                  refine ⟨1, σ1, ts, ?_, r1⟩
                  rw [Fuel.loop_leave hbody, labels_node, visitedUntilStop_stops hcalled]
              | false =>
                  have hroom := hfits 1 ⟨hcalled, trivial⟩
                  have hdebug : build = .debug →
                      (ts ++ children (.node left data right)).length ≤ maxSize.toNat := by
                    rintro rfl
                    exact hroom
                  obtain ⟨σ1, hbody, r1⟩ := levelBody_node r hsize hcalled hdebug
                  have hfits1 : Fits build visitor (ts ++ children (.node left data right))
                      (visitor q.1 q.2 data).2 :=
                    fun m hpasses => hfits (m + 1) ⟨hcalled, hpasses⟩
                  obtain ⟨fuel, σ', us, hloop, r'⟩ := ih r1 hwaiting hfits1
                  refine ⟨fuel + 1, σ', us, ?_, r'⟩
                  rw [Fuel.loop_next hbody, hloop, labels_node, visitedUntilStop_goes hcalled]

/-- A queue that gets too long for the assertion before the visitor asks to stop makes the
loop undefined. -/
theorem level_undefined (n : Nat) :
    ∀ {σ : Queue.State (Tree T)} {ts : List (Tree T)} {q : S × W}, Queued σ ts →
      ts.length ≤ maxSize.toNat → Passes visitor q ((served n ts).flatMap label) →
      ¬ (waiting n ts).length ≤ maxSize.toNat →
      Fuel.Undefined (levelBody .debug visitor) (σ, q) := by
  induction n with
  | zero => exact fun _ hts _ hover => absurd hts hover
  | succ n ih =>
      intro σ ts q r hts hpasses hover
      cases ts with
      | nil => exact absurd (Nat.zero_le _) hover
      | cons t ts =>
          have hsize : σ.2.size ≠ 0 := r.size_ne_zero (show _ ≤ Queue.limit .debug from hts)
          have hts' : ts.length ≤ maxSize.toNat := Nat.le_of_succ_le hts
          cases t with
          | invalid =>
              obtain ⟨σ1, hbody, r1⟩ := levelBody_invalid visitor r hsize q
              rw [waiting_invalid] at hover
              rw [labels_invalid] at hpasses
              exact .of_goes (.next hbody) (ih r1 hts' hpasses hover)
          | node left data right =>
              by_cases hroom : (ts ++ children (.node left data right)).length ≤ maxSize.toNat
              · obtain ⟨σ1, hbody, r1⟩ := levelBody_node r hsize hpasses.1 fun _ => hroom
                exact .of_goes (.next hbody) (ih r1 hroom hpasses.2 hover)
              · exact .fault (levelBody_full r hsize hts' hpasses.1 hroom)

/-- Without assertions the loop ends when `2 ^ 32` nodes wait: their number counts as 0. -/
theorem level_wraps (n : Nat) :
    ∀ {σ : Queue.State (Tree T)} {ts : List (Tree T)} {q : S × W}, Queued σ ts →
      ts.length ≤ Queue.limit .release → Passes visitor q ((served n ts).flatMap label) →
      ¬ (waiting n ts).length ≤ Queue.limit .release →
      ∃ k fuel σ', Fuel.loop (levelBody .release visitor) fuel (σ, q) =
          some (σ', visitedUntilStop visitor q ((served k ts).flatMap label)) ∧
        Queued σ' (waiting k ts) ∧ Passes visitor q ((served k ts).flatMap label) ∧
        (waiting k ts).length = 2 ^ 32 := by
  induction n with
  | zero => exact fun _ hts _ hover => absurd hts hover
  | succ n ih =>
      intro σ ts q r hts hpasses hover
      cases ts with
      | nil => exact absurd (Nat.zero_le _) hover
      | cons t ts =>
          have hsize : σ.2.size ≠ 0 := r.size_ne_zero hts
          have hts' : ts.length ≤ Queue.limit .release := Nat.le_of_succ_le hts
          cases t with
          | invalid =>
              obtain ⟨σ1, hbody, r1⟩ := levelBody_invalid visitor r hsize q
              rw [waiting_invalid] at hover
              rw [labels_invalid] at hpasses
              obtain ⟨k, fuel, σ', hloop, r', hk, hlength⟩ := ih r1 hts' hpasses hover
              refine ⟨k + 1, fuel + 1, σ', ?_, ?_⟩
              · rw [Fuel.loop_next hbody, hloop, labels_invalid]
              · rw [waiting_invalid, labels_invalid]
                exact ⟨r', hk, hlength⟩
          | node left data right =>
              obtain ⟨σ1, hbody, r1⟩ := levelBody_node r hsize hpasses.1
                (fun hdebug : Build.release = .debug => nomatch hdebug)
              by_cases hroom : (ts ++ children (.node left data right)).length ≤
                  Queue.limit .release
              · obtain ⟨k, fuel, σ', hloop, r', hk, hlength⟩ := ih r1 hroom hpasses.2 hover
                refine ⟨k + 1, fuel + 1, σ', ?_, r', ⟨hpasses.1, hk⟩, hlength⟩
                rw [Fuel.loop_next hbody, hloop, labels_node, visitedUntilStop_goes hpasses.1]
              · -- one node has left the queue and at most two have come
                have hlength : (ts ++ children (.node left data right)).length = 2 ^ 32 := by
                  have htwo := length_children_le (.node left data right)
                  rw [List.length_append, Queue.limit] at hroom
                  rw [List.length_cons, Queue.limit] at hts
                  rw [List.length_append]
                  omega
                have hsize1 : σ1.2.size = 0 := by
                  rw [r1.counted, Queue.count, hlength]
                  rfl
                refine ⟨1, 2, σ1, ?_, r1, ⟨hpasses.1, trivial⟩, hlength⟩
                have hleave := levelBody_leave visitor .release hsize1 (visitor q.1 q.2 data).2
                rw [Fuel.loop_next hbody, Fuel.loop_leave hleave, labels_node,
                  visitedUntilStop_goes hpasses.1]
                rfl

end Loop

/-- The queue when the loop begins. -/
theorem enqueue_root (build : Build) (t : Tree T) :
    ∃ σ, enqueue build (Queue.construct .empty) t = some σ ∧ Queued σ [t] :=
  Queued.constructed.enqueue_spec (fun _ => show 0 + 1 ≤ maxSize.toNat by decide) t

theorem levelTraversal_spec (build : Build) (visitor : Visitor T S W) (t : Tree T) (s : S)
    (w : W) (hfits : Fits build visitor (entry t) (s, w)) :
    ∃ fuel, levelTraversal build visitor fuel t s w =
      some (visitedUntilStop visitor (s, w) (breadthFirst t)) := by
  obtain ⟨σ, henqueue, r⟩ := enqueue_root build t
  have hloop : ∃ fuel σ' us, Fuel.loop (levelBody build visitor) fuel (σ, s, w) =
      some (σ', visitedUntilStop visitor (s, w) (breadthFirst t)) ∧ Queued σ' us := by
    cases t with
    | invalid =>
        -- the root is enqueued before it is known whether it is valid
        have hsize : σ.2.size ≠ 0 := by
          rw [r.counted]
          exact nofun
        obtain ⟨σ1, hbody, r1⟩ := levelBody_invalid visitor r hsize (s, w)
        obtain ⟨fuel, σ2, us, hloop, r2⟩ := level_ends 0 r1 rfl hfits
        exact ⟨fuel + 1, σ2, us, (Fuel.loop_next hbody fuel).trans hloop, r2⟩
    | node left data right =>
        obtain ⟨n, hserved, hwaiting⟩ := served_all (.node left data right)
        rw [← hserved]
        exact level_ends n r hwaiting hfits
  obtain ⟨fuel, σ', us, hloop, r'⟩ := hloop
  obtain ⟨h, hdestroy⟩ := r'.destroy_spec
  refine ⟨fuel, ?_⟩
  simp only [levelTraversal, henqueue, hloop, hdestroy, Option.bind_eq_bind, Option.bind_some,
    Option.pure_def]

/-- A run that ends does not depend on the fuel. -/
theorem levelTraversal_unique {build : Build} {visitor : Visitor T S W} {t : Tree T} {s : S}
    {w a b : W} {fuel fuel' : Nat} (ha : levelTraversal build visitor fuel t s w = some a)
    (hb : levelTraversal build visitor fuel' t s w = some b) : a = b := by
  simp only [levelTraversal, Option.bind_eq_bind, Option.pure_def, Option.bind_eq_some_iff]
    at ha hb
  obtain ⟨σ, henqueue, ⟨σ1, w1⟩, hloop, h1, -, ha⟩ := ha
  obtain ⟨σ', henqueue', ⟨σ2, w2⟩, hloop', h2, -, hb⟩ := hb
  rw [henqueue] at henqueue'
  cases henqueue'
  have hmono := Fuel.loop_mono hloop fuel'
  rw [Nat.add_comm, Fuel.loop_mono hloop' fuel] at hmono
  cases hmono
  exact Option.some.inj (ha.symm.trans hb)

/-- A moment at which too many nodes wait. -/
theorem exists_over {build : Build} {visitor : Visitor T S W} {t : Tree T} {s : S} {w : W}
    (hover : ¬ Fits build visitor (entry t) (s, w)) :
    t.valid = true ∧ ∃ n, Passes visitor (s, w) ((served n (entry t)).flatMap label) ∧
      ¬ (waiting n (entry t)).length ≤ Queue.limit build := by
  rw [Fits, not_forall] at hover
  obtain ⟨n, hover⟩ := hover
  obtain ⟨hpasses, hover⟩ := Classical.not_imp.mp hover
  refine ⟨?_, n, hpasses, hover⟩
  cases t with
  | invalid =>
      rw [entry, waiting_nil] at hover
      exact absurd (Nat.zero_le _) hover
  | node left data right => rfl

theorem levelTraversal_none (visitor : Visitor T S W) (t : Tree T) (s : S) (w : W)
    (hover : ¬ Fits .debug visitor (entry t) (s, w)) (fuel : Nat) :
    levelTraversal .debug visitor fuel t s w = none := by
  obtain ⟨σ, henqueue, r⟩ := enqueue_root .debug t
  obtain ⟨hvalid, n, hpasses, hover⟩ := exists_over hover
  cases t with
  | invalid => cases hvalid
  | node left data right =>
      have hloop := level_undefined n r (show 1 ≤ maxSize.toNat by decide) hpasses hover fuel
      simp only [levelTraversal, henqueue, hloop, Option.bind_eq_bind, Option.bind_some,
        Option.bind_none]

/-- Without assertions a run ends although `2 ^ 32` nodes wait, which it never visits. -/
theorem levelTraversal_wraps (visitor : Visitor T S W) (t : Tree T) (s : S) (w : W)
    (hover : ¬ Fits .release visitor (entry t) (s, w)) :
    ∃ fuel ds d ds', levelTraversal .release visitor fuel t s w =
        some (visitedUntilStop visitor (s, w) ds) ∧
      Passes visitor (s, w) ds ∧ breadthFirst t = ds ++ d :: ds' := by
  obtain ⟨σ, henqueue, r⟩ := enqueue_root .release t
  obtain ⟨hvalid, n, hpasses, hover⟩ := exists_over hover
  cases t with
  | invalid => cases hvalid
  | node left data right =>
      obtain ⟨k, fuel, σ', hloop, r', hk, hlength⟩ :=
        level_wraps n r (show 1 ≤ Queue.limit .release by decide) hpasses hover
      obtain ⟨h, hdestroy⟩ := r'.destroy_spec
      have hwaits : waiting k (entry (.node left data right)) ≠ [] := by
        intro hnil
        have hzero : (waiting k (entry (.node left data right))).length = 0 := by
          rw [hnil, List.length_nil]
        exact absurd (hlength.symm.trans hzero) (by decide)
      obtain ⟨d, ds, hnext⟩ := next_served hwaits
      refine ⟨fuel, _, d, ds, ?_, hk, hnext⟩
      have hloop' : Fuel.loop (levelBody .release visitor) fuel (σ, s, w) = _ := hloop
      simp only [levelTraversal, henqueue, hloop', hdestroy, Option.bind_eq_bind,
        Option.bind_some, Option.pure_def]

theorem fits_recorded (build : Build) (visitor : Visitor T S W) (ts : List (Tree T)) (s : S)
    (w : W) :
    Fits build (recorded visitor) ts (s, w, []) ↔ Fits build visitor ts (s, w) :=
  forall_congr' fun _ => imp_congr_left (passes_recorded visitor _ s w [])

/-- A breadth-first sequence has each valid node once. -/
theorem breadthFirst_perm (t : Tree T) :
    ∀ n, height t ≤ n → ((above n t).flatMap label).Perm (preorder t) := by
  induction t with
  | invalid =>
      intro n _
      rw [above, show (atDepth · (.invalid : Tree T)) = fun _ => [] from
        funext fun k => by cases k <;> rfl, List.flatMap_eq_nil_iff.mpr fun _ _ => rfl]
      exact .refl _
  | node left data right ihl ihr =>
      intro n hn
      rw [height] at hn
      cases n with
      | zero => omega
      | succ n =>
          have hlevels : above (n + 1) (.node left data right) = .node left data right ::
              (List.range n).flatMap fun k => atDepth k left ++ atDepth k right := by
            rw [above, List.range_succ_eq_map, List.flatMap_cons, List.flatMap_map]
            rfl
          have hsplit := (List.flatMap_append_perm (List.range n) (atDepth · left)
            (atDepth · right)).symm.flatMap_right label
          rw [hlevels, List.flatMap_cons, preorder, label, List.singleton_append]
          refine .cons data (hsplit.trans ?_)
          rw [List.flatMap_append]
          exact (ihl n (by omega)).append (ihr n (by omega))

/-- **Level by level.** `levelTraversal` calls the visitor on the breadth-first sequence of
the valid nodes, each one once, up to the first call that asks to stop, exactly if the queue
can count what is enqueued until then. -/
theorem levelTraversal_iff (build : Build) (visitor : Visitor T S W) (t : Tree T) (s : S)
    (w : W) :
    (breadthFirst t).Perm (preorder t) ∧
    ((∃ fuel w', levelTraversal build (recorded visitor) fuel t s (w, []) = some w' ∧
        w'.2 = callsUntilStop visitor (s, w) (breadthFirst t)) ↔
      Fits build visitor (entry t) (s, w)) := by
  refine ⟨breadthFirst_perm t _ (Nat.le_refl _), ?_⟩
  rw [← fits_recorded]
  constructor
  · rintro ⟨fuel, w', hrun, hcalls⟩
    by_contra hover
    cases build with
    | debug =>
        rw [levelTraversal_none _ t s _ hover] at hrun
        cases hrun
    | release =>
        obtain ⟨fuel', ds, d, ds', hrun', hpasses, hsplit⟩ := levelTraversal_wraps _ t s _ hover
        obtain rfl := levelTraversal_unique hrun hrun'
        rw [visitedUntilStop_recorded, List.nil_append, hsplit] at hcalls
        exact callsUntilStop_append_ne d ds' ds (s, w)
          ((passes_recorded visitor ds s w []).mp hpasses) hcalls.symm
  · intro hfits
    obtain ⟨fuel, hrun⟩ := levelTraversal_spec build _ t s _ hfits
    exact ⟨fuel, _, hrun, visitedUntilStop_recorded visitor _ s w []⟩

/-! ## A tree that is too wide -/

/-- A tree of `n` levels that are complete. -/
def perfect : Nat → Tree Nat
  | 0 => .invalid
  | n + 1 => .node (perfect n) 0 (perfect n)

theorem length_atDepth_perfect (n : Nat) :
    ∀ k, k < n → (atDepth k (perfect n)).length = 2 ^ k := by
  induction n with
  | zero => exact fun k hk => absurd hk (Nat.not_lt_zero k)
  | succ n ih =>
      intro k hk
      cases k with
      | zero => rfl
      | succ k =>
          rw [perfect, atDepth, List.length_append, ih k (Nat.lt_of_succ_lt_succ hk), Nat.pow_succ,
            Nat.mul_two]

theorem passes_of_neverStops {visitor : Visitor T S W} (hgo : NeverStops visitor) (ds : List T) :
    ∀ q : S × W, Passes visitor q ds := by
  induction ds with
  | nil => exact fun _ => trivial
  | cons d ds ih => exact fun q => ⟨hgo q.1 q.2 d, ih _⟩

/-- A level with more nodes than the queue can hold. -/
theorem not_fits_perfect {n k : Nat} (hk : k < n) (hwide : maxSize.toNat < 2 ^ k) :
    ¬ Fits .debug passive (entry (perfect n)) ((), ()) := by
  intro hfits
  have hroom := hfits (above k (perfect n)).length (passes_of_neverStops (fun _ _ _ => rfl) _ _)
  rw [(served_above (perfect n) k).2, length_atDepth_perfect n k hk] at hroom
  exact absurd hroom (Nat.not_le_of_lt hwide)

/-- The 33rd level of a complete tree does not fit into the queue. -/
theorem levelTraversal_aborts :
    ¬ ∃ fuel w',
      levelTraversal .debug (recorded passive) fuel (perfect 33) () ((), []) = some w' ∧
      w'.2 = callsUntilStop passive ((), ()) (breadthFirst (perfect 33)) := by
  rintro ⟨fuel, w', hrun, -⟩
  have hover := mt (fits_recorded .debug passive (entry (perfect 33)) () ()).mp
    (not_fits_perfect (k := 32) (by decide) (by decide))
  rw [levelTraversal_none _ _ _ _ hover] at hrun
  cases hrun

end LearnSpace.DataStructure.Tree
