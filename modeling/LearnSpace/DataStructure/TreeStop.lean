import LearnSpace.DataStructure.Tree

/-!
# Stopping a traversal

A visitor that answers `true` asks to stop. The versions with a stack or a queue return
then. The recursive ones return to their caller, which does not see why, and goes on: with
a right child, with a parent. Which visits are still to come depends on where in the tree
the visitor first asks to stop, a place that the visitor and the tree determine
(`preorderStop` and its siblings).

A traversal is a sequence of pieces. `Follows` compares what a piece does with what the
visitor asked for: up to the first stop both agree, and what comes after it is empty
exactly if nothing was left to be visited.
-/

namespace LearnSpace.DataStructure.Tree

variable {T S W : Type}

/-! ## Where a visitor first asks to stop -/

/-- A step on the way to a node. -/
inductive Side
  | left
  | right
  deriving DecidableEq

/-- The way to a node of a child, from its parent. -/
def under {α : Type} (side : Side) (stop : Except (List Side) α) : Except (List Side) α :=
  stop.mapError (side :: ·)

/-- One visit: the way to the node itself, or the world in which to go on. -/
def visitStop (visitor : Visitor T S W) (data : T) (s : S) (w : W) : Except (List Side) W :=
  let called := visitor s w data
  if called.1 then .error [] else .ok called.2.2

theorem visitStop_ok {visitor : Visitor T S W} {data : T} {s : S} {w : W}
    (hcalled : (visitor s w data).1 = false) :
    visitStop visitor data s w = .ok (visitor s w data).2.2 := by
  simp only [visitStop, hcalled, Bool.false_eq_true, if_false]

theorem visitStop_error {visitor : Visitor T S W} {data : T} {s : S} {w : W}
    (hcalled : (visitor s w data).1 = true) : visitStop visitor data s w = .error [] := by
  simp only [visitStop, hcalled, if_true]

/-- The first node in preorder at which the visitor asks to stop. -/
def preorderStop (visitor : Visitor T S W) : Tree T → S → W → Except (List Side) W
  | .invalid, _, w => .ok w
  | .node left data right, s, w =>
    let s' := (visitor s w data).2.1
    (visitStop visitor data s w).bind (fun w =>
      (under .left (preorderStop visitor left s' w)).bind (fun w =>
        under .right (preorderStop visitor right s' w)))

/-- The first node in inorder at which the visitor asks to stop. -/
def inorderStop (visitor : Visitor T S W) : Tree T → S → W → Except (List Side) W
  | .invalid, _, w => .ok w
  | .node left data right, s, w =>
    (under .left (inorderStop visitor left s w)).bind (fun w =>
      let s' := (visitor s w data).2.1
      (visitStop visitor data s w).bind (fun w =>
        under .right (inorderStop visitor right s' w)))

/-- The first node in postorder at which the visitor asks to stop. -/
def postorderStop (visitor : Visitor T S W) : Tree T → S → W → Except (List Side) W
  | .invalid, _, w => .ok w
  | .node left data right, s, w =>
    (under .left (postorderStop visitor left s w)).bind (fun w =>
      (under .right (postorderStop visitor right s w)).bind (fun w =>
        visitStop visitor data s w))

/-- On the way to a node there is a turn to the left at a node with a right child. -/
def rightPending : Tree T → List Side → Bool
  | .node left _ right, .left :: p => right.valid || rightPending left p
  | .node _ _ right, .right :: p => rightPending right p
  | _, _ => false

/-! ## Calls after the first stop -/

theorem stopsAtOnce_of_go {calls : List (T × Bool)} (hgo : ∀ call ∈ calls, call.2 = false) :
    StopsAtOnce calls := by
  unfold StopsAtOnce
  induction calls with
  | nil => exact .nil
  | cons call calls ih =>
      refine .cons (fun _ _ => hgo call List.mem_cons_self) (ih ?_)
      intro call' hmem
      exact hgo call' (List.mem_cons_of_mem call hmem)

theorem stopsAtOnce_iff {calls rest : List (T × Bool)} {data : T}
    (hgo : ∀ call ∈ calls, call.2 = false) :
    StopsAtOnce (calls ++ (data, true) :: rest) ↔ rest = [] := by
  unfold StopsAtOnce
  rw [List.pairwise_append, List.pairwise_cons]
  constructor
  · rintro ⟨-, ⟨hstop, -⟩, -⟩
    cases rest with
    | nil => rfl
    | cons call rest => exact absurd (hstop call List.mem_cons_self) nofun
  · rintro rfl
    exact ⟨stopsAtOnce_of_go hgo, ⟨nofun, .nil⟩, fun call hmem _ _ => hgo call hmem⟩

/-- A piece of a traversal turns the world and the calls before it into `out`. If the
visitor asks to stop in it, at `p`, calls come after that exactly if `more p`. It has
calls at all exactly if `visits`. -/
structure Follows (visits : Bool) (more : List Side → Prop) (calls : List (T × Bool))
    (out : W × List (T × Bool)) (stop : Except (List Side) W) : Prop where
  passed : ∀ w, stop = .ok w → ∃ new, out = (w, calls ++ new) ∧
    (∀ call ∈ new, call.2 = false) ∧ (new = [] ↔ visits = false)
  stopped : ∀ p, stop = .error p → visits = true ∧ ∃ new data rest,
    out.2 = calls ++ (new ++ (data, true) :: rest) ∧ (∀ call ∈ new, call.2 = false) ∧
      (rest = [] ↔ ¬ more p)

namespace Follows

variable {visits visits' : Bool} {more more' : List Side → Prop}
  {calls : List (T × Bool)} {out : W × List (T × Bool)} {stop : Except (List Side) W}

/-- Whether or not it is asked to stop, a piece only adds calls. -/
theorem appends (f : Follows visits more calls out stop) :
    ∃ new, out.2 = calls ++ new ∧ (new = [] ↔ visits = false) := by
  cases hstop : stop with
  | ok w =>
      obtain ⟨new, hout, -, hnew⟩ := f.passed w hstop
      exact ⟨new, congrArg Prod.snd hout, hnew⟩
  | error p =>
      obtain ⟨hvisits, new, data, rest, hout, -, -⟩ := f.stopped p hstop
      refine ⟨_, hout, ?_⟩
      rw [hvisits]
      simp

/-- Nothing at all. -/
theorem nothing (w : W) (calls : List (T × Bool)) :
    Follows false more calls (w, calls) (.ok w) where
  passed := by
    rintro w' ⟨⟩
    exact ⟨[], by rw [List.append_nil], nofun, by simp⟩
  stopped := nofun

/-- One call of the visitor. -/
theorem visit (visitor : Visitor T S W) (data : T) (s : S) (w : W × List (T × Bool)) :
    Follows true (fun _ => False) w.2 (recorded visitor s w data).2.2
      (visitStop visitor data s w.1) := by
  cases hcalled : (visitor s w.1 data).1 with
  | false =>
      rw [visitStop_ok hcalled, recorded, hcalled]
      refine ⟨?_, nofun⟩
      rintro w' ⟨⟩
      exact ⟨[(data, false)], rfl, by simp, by simp⟩
  | true =>
      rw [visitStop_error hcalled, recorded, hcalled]
      refine ⟨nofun, ?_⟩
      rintro p ⟨⟩
      exact ⟨rfl, [], data, [], rfl, nofun, by simp⟩

/-- A child, seen from its parent. -/
theorem child (side : Side) (f : Follows visits more calls out stop) :
    Follows visits (fun p => more p.tail) calls out (under side stop) := by
  cases stop with
  | ok w => exact ⟨f.passed, nofun⟩
  | error p =>
      refine ⟨nofun, ?_⟩
      rintro p' ⟨⟩
      exact f.stopped p rfl

/-- Two pieces, of which the second one comes even if the first one is asked to stop. -/
theorem andThen (both : List Side → Prop) {next : W × List (T × Bool) → W × List (T × Bool)}
    (stop' : W → Except (List Side) W) (f : Follows visits more calls out stop)
    (g : ∀ w, Follows visits' more' w.2 (next w) (stop' w.1))
    (hfirst : ∀ p, stop = .error p → (both p ↔ more p ∨ visits' = true))
    (hsecond : ∀ w p, stop = .ok w → stop' w = .error p → (both p ↔ more' p)) :
    Follows (visits || visits') both calls (next out) (stop.bind stop') := by
  cases hstop : stop with
  | ok w =>
      obtain ⟨new, rfl, hgo, hnew⟩ := f.passed w hstop
      have hg := g (w, calls ++ new)
      refine ⟨?_, ?_⟩
      · intro w' hpassed
        obtain ⟨new', hout, hgo', hnew'⟩ := hg.passed w' hpassed
        refine ⟨new ++ new', ?_, ?_, ?_⟩
        · rw [hout, List.append_assoc]
        · intro call hmem
          exact (List.mem_append.mp hmem).elim (hgo call) (hgo' call)
        · rw [List.append_eq_nil_iff, hnew, hnew', Bool.or_eq_false_iff]
      · intro p hstopped
        obtain ⟨hvisits, new', data, rest, hout, hgo', hrest⟩ := hg.stopped p hstopped
        refine ⟨by rw [hvisits, Bool.or_true], new ++ new', data, rest, ?_, ?_, ?_⟩
        · rw [hout, List.append_assoc, List.append_assoc]
        · intro call hmem
          exact (List.mem_append.mp hmem).elim (hgo call) (hgo' call)
        · rw [hrest, hsecond w p hstop hstopped]
  | error p =>
      -- the second piece is not told, and what it visits comes after the stop
      obtain ⟨hvisits, new, data, rest, hout, hgo, hrest⟩ := f.stopped p hstop
      obtain ⟨new', hout', hnew'⟩ := (g out).appends
      refine ⟨nofun, ?_⟩
      rintro p' ⟨⟩
      refine ⟨by rw [hvisits, Bool.true_or], new, data, rest ++ new', ?_, hgo, ?_⟩
      · rw [hout', hout]
        simp only [List.append_assoc, List.cons_append]
      · rw [List.append_eq_nil_iff, hrest, hnew', hfirst p hstop, not_or, Bool.not_eq_true]

/-- A visit, and a piece that comes only if the visit does not ask to stop. -/
theorem visitThen (both : List Side → Prop) (stop' : W → Except (List Side) W)
    (visitor : Visitor T S W) (data : T) (s : S) (w : W × List (T × Bool))
    {next : W × List (T × Bool) → W × List (T × Bool)}
    (hself : ¬ both [])
    (g : ∀ w : W × List (T × Bool), Follows visits both w.2 (next w) (stop' w.1)) :
    Follows true both w.2
      (if (recorded visitor s w data).1 then (recorded visitor s w data).2.2
        else next (recorded visitor s w data).2.2)
      ((visitStop visitor data s w.1).bind stop') := by
  have hvisit := visit visitor data s w
  cases hcalled : (visitor s w.1 data).1 with
  | false =>
      have hgo : (recorded visitor s w data).1 = false := hcalled
      rw [hgo, if_neg Bool.false_ne_true]
      refine andThen both stop' hvisit g ?_ (fun _ _ _ _ => Iff.rfl)
      intro p hstop
      rw [visitStop_ok hcalled] at hstop
      cases hstop
  | true =>
      have hstop : (recorded visitor s w data).1 = true := hcalled
      rw [visitStop_error hcalled] at hvisit ⊢
      rw [hstop, if_pos rfl]
      refine ⟨nofun, ?_⟩
      rintro p ⟨⟩
      obtain ⟨-, new, data', rest, hout, hgo, hrest⟩ := hvisit.stopped [] rfl
      exact ⟨rfl, new, data', rest, hout, hgo, by simp [hrest, hself]⟩

/-- No call comes after the first stop exactly if nothing more was to be visited then. -/
theorem stopsAtOnce_iff (f : Follows visits more [] out stop) :
    StopsAtOnce out.2 ↔ ∀ p, stop = .error p → ¬ more p := by
  cases hstop : stop with
  | ok w =>
      obtain ⟨new, rfl, hgo, -⟩ := f.passed w hstop
      exact iff_of_true (stopsAtOnce_of_go hgo) nofun
  | error p =>
      obtain ⟨-, new, data, rest, hout, hgo, hrest⟩ := f.stopped p hstop
      rw [hout, List.nil_append, Tree.stopsAtOnce_iff hgo, hrest]
      exact ⟨by rintro hmore p' ⟨⟩; exact hmore, fun h => h p rfl⟩

end Follows

theorem under_error {α : Type} {side : Side} {stop : Except (List Side) α} {p : List Side}
    (h : under side stop = .error p) : ∃ q, p = side :: q := by
  cases stop with
  | ok w => cases h
  | error q =>
      cases h
      exact ⟨q, rfl⟩

/-! ## The three traversals -/

variable (visitor : Visitor T S W)

theorem preorder_follows (t : Tree T) : ∀ (s : S) (w : W × List (T × Bool)),
    Follows t.valid (rightPending t ·) w.2 (preorderTraversal (recorded visitor) t s w)
      (preorderStop visitor t s w.1) := by
  induction t with
  | invalid =>
      intro s w
      exact .nothing w.1 w.2
  | node left data right ihl ihr =>
      intro s w
      let s' := (visitor s w.1 data).2.1
      have hrest (w' : W × List (T × Bool)) :=
        Follows.andThen (rightPending (.node left data right) ·)
          (fun w'' => under .right (preorderStop visitor right s' w''))
          ((ihl s' w').child .left) (fun w'' => (ihr s' w'').child .right) ?_ ?_
      · exact Follows.visitThen _ (fun w' => (under .left (preorderStop visitor left s' w')).bind
          (fun w'' => under .right (preorderStop visitor right s' w'')))
          visitor data s w Bool.false_ne_true hrest
      · intro p hstop
        obtain ⟨q, rfl⟩ := under_error hstop
        show (right.valid || rightPending left q) = true ↔ _
        rw [Bool.or_eq_true, or_comm]
        rfl
      · intro w'' p _ hstop
        obtain ⟨q, rfl⟩ := under_error hstop
        rfl

theorem inorder_follows (t : Tree T) : ∀ (s : S) (w : W × List (T × Bool)),
    Follows t.valid (.left ∈ ·) w.2 (inorderTraversal (recorded visitor) t s w)
      (inorderStop visitor t s w.1) := by
  induction t with
  | invalid =>
      intro s w
      exact .nothing w.1 w.2
  | node left data right ihl ihr =>
      intro s w
      have hrest (w' : W × List (T × Bool)) :=
        Follows.visitThen (.left ∈ ·.tail)
          (fun w'' => under .right (inorderStop visitor right (visitor s w'.1 data).2.1 w''))
          visitor data s w' List.not_mem_nil (fun w'' => (ihr _ w'').child .right)
      have hall := Follows.andThen (.left ∈ ·)
        (fun w' => (visitStop visitor data s w').bind (fun w'' =>
          under .right (inorderStop visitor right (visitor s w' data).2.1 w'')))
        ((ihl s w).child .left) hrest ?_ ?_
      · rw [Bool.or_true] at hall
        exact hall
      · intro p hstop
        obtain ⟨q, rfl⟩ := under_error hstop
        simp
      · intro w' p _ hstop
        cases hcalled : (visitor s w' data).1 with
        | true =>
            rw [visitStop_error hcalled] at hstop
            cases hstop
            exact Iff.rfl
        | false =>
            rw [visitStop_ok hcalled] at hstop
            obtain ⟨q, rfl⟩ := under_error hstop
            simp

theorem postorder_follows (t : Tree T) : ∀ (s : S) (w : W × List (T × Bool)),
    Follows t.valid (· ≠ []) w.2 (postorderTraversal (recorded visitor) t s w)
      (postorderStop visitor t s w.1) := by
  induction t with
  | invalid =>
      intro s w
      exact .nothing w.1 w.2
  | node left data right ihl ihr =>
      intro s w
      have hrest (w' : W × List (T × Bool)) :=
        Follows.andThen (· ≠ []) (visitStop visitor data s) ((ihr s w').child .right)
          (Follows.visit visitor data s) ?_ ?_
      · have hall := Follows.andThen (· ≠ [])
          (fun w' => (under .right (postorderStop visitor right s w')).bind
            (visitStop visitor data s)) ((ihl s w).child .left) hrest ?_ (fun _ _ _ _ => Iff.rfl)
        · rw [Bool.or_true, Bool.or_true] at hall
          exact hall
        · intro p hstop
          obtain ⟨q, rfl⟩ := under_error hstop
          simp
      · intro p hstop
        obtain ⟨q, rfl⟩ := under_error hstop
        simp
      · intro w'' p _ hstop
        cases hcalled : (visitor s w'' data).1 with
        | true =>
            rw [visitStop_error hcalled] at hstop
            cases hstop
            simp
        | false =>
            rw [visitStop_ok hcalled] at hstop
            cases hstop

/-- **Stopping.** A recursive traversal makes no call after the first one that asked to
stop exactly if that one was at a node behind which it had nothing left: in preorder no
turn to the left on the way to it left a right child, in inorder there was no such turn
at all, and in postorder the node is the root. -/
theorem stopsAtOnce_recursive_iff (t : Tree T) (s : S) (w : W) :
    (StopsAtOnce (preorderTraversal (recorded visitor) t s (w, [])).2 ↔
      ∀ p, preorderStop visitor t s w = .error p → rightPending t p = false) ∧
    (StopsAtOnce (inorderTraversal (recorded visitor) t s (w, [])).2 ↔
      ∀ p, inorderStop visitor t s w = .error p → .left ∉ p) ∧
    (StopsAtOnce (postorderTraversal (recorded visitor) t s (w, [])).2 ↔
      ∀ p, postorderStop visitor t s w = .error p → p = []) := by
  refine ⟨?_, ?_, ?_⟩
  · have h := (preorder_follows visitor t s (w, [])).stopsAtOnce_iff
    simpa only [Bool.not_eq_true] using h
  · exact (inorder_follows visitor t s (w, [])).stopsAtOnce_iff
  · have h := (postorder_follows visitor t s (w, [])).stopsAtOnce_iff
    simpa only [ne_eq, not_not] using h

/-! ## The traversals with a stack or a queue -/

section Loops

variable {visitor}

/-- A loop over stacks or a queue `X` calls the visitor at most once in an iteration, and
leaves when it asks to stop. -/
def LeavesOnStop {X : Type} (visitor : Visitor T S W)
    (body : X × S × W → Option ((X × S × W) ⊕ (X × W))) : Prop :=
  ∀ x s w r, body (x, s, w) = some r →
    match r with
    | .inl (_, _, w') =>
      w' = w ∨ ∃ data, (visitor s w data).1 = false ∧ w' = (visitor s w data).2.2
    | .inr (_, w') => w' = w ∨ ∃ data, w' = (visitor s w data).2.2

theorem LeavesOnStop.stopsAtOnce {X : Type}
    {body : X × S × (W × List (T × Bool)) →
      Option ((X × S × (W × List (T × Bool))) ⊕ (X × (W × List (T × Bool))))}
    (hbody : LeavesOnStop (recorded visitor) body) {fuel : Nat} {x x' : X} {s : S} {w : W}
    {w' : W × List (T × Bool)} (h : Keel.Fuel.loop body fuel (x, s, w, []) = some (x', w')) :
    StopsAtOnce w'.2 := by
  refine Keel.Fuel.loop_invariant (P := fun q => ∀ call ∈ q.2.2.2, call.2 = false)
    (Q := fun r => StopsAtOnce r.2.2) ?_ ?_ nofun h
  · rintro ⟨x, s, w⟩ ⟨x', s', w'⟩ hgo hnext
    rcases hbody x s w _ hnext with rfl | ⟨data, hcalled, rfl⟩
    · exact hgo
    · intro call hmem
      rcases List.mem_append.mp hmem with hmem | hmem
      · exact hgo call hmem
      · obtain rfl := List.mem_singleton.mp hmem
        exact hcalled
  · rintro ⟨x, s, w⟩ ⟨x', w'⟩ hgo hleave
    rcases hbody x s w _ hleave with rfl | ⟨data, rfl⟩
    · exact stopsAtOnce_of_go hgo
    · refine List.pairwise_append.mpr ⟨stopsAtOnce_of_go hgo, List.pairwise_singleton _ _, ?_⟩
      intro call hmem _ _
      exact hgo call hmem

theorem preorderBody_leaves (build : Build) :
    LeavesOnStop visitor (preorderBody build visitor) := by
  intro σ s w r h
  simp only [preorderBody, Option.bind_eq_bind, Option.pure_def] at h
  rw [Option.bind_eq_some_iff] at h
  obtain ⟨b, -, h⟩ := h
  split at h
  · cases h
    exact .inl rfl
  · rw [Option.bind_eq_some_iff] at h
    obtain ⟨⟨σ1, t⟩, -, h⟩ := h
    cases t with
    | invalid => cases h
    | node left data right =>
        cases hcalled : (visitor s w data).1 with
        | true =>
            simp only [hcalled, if_true] at h
            cases h
            exact .inr ⟨data, rfl⟩
        | false =>
            simp only [hcalled, Bool.false_eq_true, if_false, Option.bind_eq_some_iff] at h
            obtain ⟨σ2, -, σ3, -, h⟩ := h
            cases h
            exact .inr ⟨data, hcalled, rfl⟩

theorem visitBody_leaves (build : Build) : LeavesOnStop visitor (visitBody build visitor) := by
  intro σ s w r h
  simp only [visitBody, Option.bind_eq_bind, Option.pure_def] at h
  rw [Option.bind_eq_some_iff] at h
  obtain ⟨b, -, h⟩ := h
  split at h
  · cases h
    exact .inl rfl
  · rw [Option.bind_eq_some_iff] at h
    obtain ⟨⟨σ1, t⟩, -, h⟩ := h
    cases t with
    | invalid => cases h
    | node left data right =>
        cases hcalled : (visitor s w data).1 with
        | true =>
            simp only [hcalled, if_true] at h
            cases h
            exact .inr ⟨data, rfl⟩
        | false =>
            simp only [hcalled, Bool.false_eq_true, if_false] at h
            cases h
            exact .inr ⟨data, hcalled, rfl⟩

theorem levelBody_leaves (build : Build) :
    LeavesOnStop visitor (levelBody build visitor) := by
  intro σ s w r h
  simp only [levelBody, Option.bind_eq_bind, Option.pure_def] at h
  split at h
  · cases h
    exact .inl rfl
  · simp only [Option.bind_eq_some_iff] at h
    obtain ⟨⟨σ1, t⟩, -, h⟩ := h
    cases t with
    | invalid =>
        cases h
        exact .inl rfl
    | node left data right =>
        cases hcalled : (visitor s w data).1 with
        | true =>
            simp only [hcalled, if_true] at h
            cases h
            exact .inr ⟨data, rfl⟩
        | false =>
            simp only [hcalled, Bool.false_eq_true, if_false, Option.bind_eq_some_iff] at h
            obtain ⟨σ2, -, σ3, -, h⟩ := h
            cases h
            exact .inr ⟨data, hcalled, rfl⟩

/-- The traversals with a stack or a queue make no call after one that asked to stop. -/
theorem stopsAtOnce_loops (build : Build) (fuel : Nat) (t : Tree T) (s : S) (w : W)
    (w' : W × List (T × Bool)) :
    (preorderTraversalV2 build (recorded visitor) fuel t s (w, []) = some w' →
      StopsAtOnce w'.2) ∧
    (postorderTraversalV2 build (recorded visitor) fuel t s (w, []) = some w' →
      StopsAtOnce w'.2) ∧
    (levelTraversal build (recorded visitor) fuel t s (w, []) = some w' →
      StopsAtOnce w'.2) := by
  refine ⟨?_, ?_, ?_⟩ <;> intro h
  · simp only [preorderTraversalV2, Option.bind_eq_bind, Option.pure_def] at h
    split at h
    · cases h
      exact .nil
    · simp only [Option.bind_eq_some_iff] at h
      obtain ⟨σ0, -, σ1, -, ⟨σ2, w2⟩, hloop, σ3, -, h⟩ := h
      cases h
      exact (preorderBody_leaves build).stopsAtOnce hloop
  · simp only [postorderTraversalV2, Option.bind_eq_bind, Option.pure_def] at h
    split at h
    · cases h
      exact .nil
    · simp only [Option.bind_eq_some_iff] at h
      obtain ⟨σ0, -, σ1, -, σ2, -, σ3, -, ⟨σ4, w4⟩, hloop, σ5, -, σ6, -, h⟩ := h
      cases h
      exact (visitBody_leaves build).stopsAtOnce hloop
  · simp only [levelTraversal, Option.bind_eq_bind, Option.pure_def, Option.bind_eq_some_iff] at h
    obtain ⟨σ1, -, ⟨σ2, w2⟩, hloop, h3, -, h⟩ := h
    cases h
    exact (levelBody_leaves build).stopsAtOnce hloop

end Loops

/-- A visitor that asks to stop at 1. -/
def stopsAtOne : Visitor Nat Unit Unit := fun s w data => (data == 1, s, w)

/-- A root with two children, of which the left one stops the visitor. -/
def stoppedLeft : Tree Nat := .node (.node .invalid 1 .invalid) 0 (.node .invalid 2 .invalid)

/-- The recursive traversals go on with the root or its right child. -/
theorem recursive_goes_on :
    ¬ StopsAtOnce (preorderTraversal (recorded stopsAtOne) stoppedLeft () ((), [])).2 ∧
    ¬ StopsAtOnce (inorderTraversal (recorded stopsAtOne) stoppedLeft () ((), [])).2 ∧
    ¬ StopsAtOnce (postorderTraversal (recorded stopsAtOne) stoppedLeft () ((), [])).2 := by
  decide

end LearnSpace.DataStructure.Tree
