import LearnSpace.Keel.TSys
import LearnSpace.Tcp.Tcb

/-!
# Runs over the table of control blocks

What the table is for is a list of nodes with their control blocks (`entries`): `addTCBNode`
puts one at the end, `delTCBNode` takes one out, and a lookup answers with the first control
block that matches. A run keeps this list beside the table.

`delTCBNode` drops everything behind the node, so it is right for the last node only, and
`findTCB` stays at the first node, so it is right only if that decides the answer
(`right_iff`).
-/

namespace LearnSpace.Tcp

open Keel Function

namespace Table

variable {σ : Table} {entries : List (Ptr × Ptr)} {tcbs : Heap TCB} {same : TCB → Bool}

/-! ## Lookups -/

/-- The first control block that matches, or null. -/
def firstTCB (tcbs : Heap TCB) (same : TCB → Bool) : List (Ptr × Ptr) → Ptr
  | [] => null
  | e :: rest => if (tcbs.load e.2).any same then e.2 else firstTCB tcbs same rest

/-- There is no node, or the first one's control block matches. -/
def FirstMatches (tcbs : Heap TCB) (same : TCB → Bool) (entries : List (Ptr × Ptr)) : Prop :=
  ∀ e ∈ entries.head?, (tcbs.load e.2).any same = true

/-- The turn at the first node. -/
theorem findTurn_first (same : TCB → Bool) {e : Ptr × Ptr} {rest : List (Ptr × Ptr)}
    (h : Holds σ (e :: rest)) {tcb : TCB} (htcb : tcbs.load e.2 = some tcb) :
    σ.findTurn tcbs same e.1 = some (if same tcb then .inr e.2 else .inl e.1) := by
  have hne : e.1 ≠ null := by
    intro heq
    exact h.null_notMem (heq ▸ List.mem_cons_self)
  simp only [findTurn, if_neg hne, h.tcbs e List.mem_cons_self, htcb, Option.bind_eq_bind,
    Option.bind_some, Option.pure_def]

/-- A lookup comes to the right answer exactly if there is no node or the first one's
control block matches. Else it never ends. -/
theorem findLoop_iff (h : Holds σ entries) (hlive : ∀ e ∈ entries, e.2 ∈ tcbs.live) :
    (∃ fuel, σ.findLoop fuel tcbs same = some (firstTCB tcbs same entries)) ↔
      FirstMatches tcbs same entries := by
  have hhead := h.chain.first
  cases entries with
  | nil =>
      constructor
      · intro _ e he
        cases he
      · intro _
        refine ⟨1, ?_⟩
        simp only [findLoop, hhead, Option.bind_eq_bind, Option.bind_some]
        have hturn : σ.findTurn tcbs same null = some (.inr null) := if_pos rfl
        exact Fuel.loop_leave hturn 0
  | cons e rest =>
      obtain ⟨tcb, htcb⟩ := Heap.mem_live.mp (hlive e List.mem_cons_self)
      have hturn := findTurn_first same h htcb
      have hmatch : FirstMatches tcbs same (e :: rest) ↔ same tcb = true := by
        simp [FirstMatches, show tcbs.load e.2 = some tcb from htcb]
      rw [hmatch]
      simp only [findLoop, hhead, Option.bind_eq_bind, Option.bind_some, List.map_cons,
        List.headD_cons]
      constructor
      · intro ⟨fuel, hfuel⟩
        by_contra hsame
        rw [if_neg hsame] at hturn
        rw [Fuel.Undefined.of_stuck hturn fuel] at hfuel
        cases hfuel
      · intro hsame
        rw [if_pos hsame] at hturn
        refine ⟨1, ?_⟩
        rw [Fuel.loop_leave hturn 0]
        simp [firstTCB, show tcbs.load e.2 = some tcb from htcb, hsame]

/-- `isSameAddr` compares all four fields. -/
theorem isSameAddr_eq_zero (a b : AddrGrop) : isSameAddr a b = 0 ↔ a = b := by
  unfold isSameAddr
  cases a
  cases b
  simp only [AddrGrop.mk.injEq]
  split
  · simpa using ‹_›
  · constructor
    · intro heq
      exact absurd heq (by decide)
    · intro heq
      exact absurd heq ‹_›

/-! ## Calls -/

/-- A call: a fresh node for a control block is added, a node is deleted, or a control block
is looked up by address or descriptor, among the control blocks as they are at that time. -/
inductive TableCall where
  | add (tcb : Ptr)
  | del (node : Ptr)
  | findAddr (tcbs : Heap TCB) (addr : AddrGrop)
  | findFd (tcbs : Heap TCB) (fd : Int32)

/-- A table, and the nodes added and not deleted, in order of addition. -/
structure Run where
  table : Table
  entries : List (Ptr × Ptr)

/-- The table behind a call that comes to its end. -/
inductive TableCall.Ends (σ : Table) : TableCall → Table → Prop
  | add {tcb fuel σ'} : (σ.newNode tcb).2.addTCBNode fuel (σ.newNode tcb).1 = some σ' →
      Ends σ (.add tcb) σ'
  | del {node fuel σ'} : σ.delTCBNode fuel node = some σ' → Ends σ (.del node) σ'
  | findAddr {tcbs addr fuel p} : σ.findTCBAddr fuel tcbs (some addr) = some p →
      Ends σ (.findAddr tcbs addr) σ
  | findFd {tcbs fd fuel p} : σ.findTCBFd fuel tcbs fd = some p → Ends σ (.findFd tcbs fd) σ

/-- What becomes of the list. -/
def TableCall.after (σ : Table) (entries : List (Ptr × Ptr)) : TableCall → List (Ptr × Ptr)
  | .add tcb => entries ++ [((σ.newNode tcb).1, tcb)]
  | .del node => entries.filter fun e => e.1 ≠ node
  | .findAddr _ _ => entries
  | .findFd _ _ => entries

/-- A deleted node is present, and every node's control block is there to be looked at. -/
def TableCall.Legal (entries : List (Ptr × Ptr)) : TableCall → Prop
  | .add _ => True
  | .del node => node ∈ entries.map Prod.fst
  | .findAddr tcbs _ => ∀ e ∈ entries, e.2 ∈ tcbs.live
  | .findFd tcbs _ => ∀ e ∈ entries, e.2 ∈ tcbs.live

/-- The call ends, the chain is the list again, and a lookup answers with the first control
block of the list that matches. -/
def TableCall.Right (s : Run) : TableCall → Prop
  | .add tcb => ∃ σ', Ends s.table (.add tcb) σ' ∧ Holds σ' (after s.table s.entries (.add tcb))
  | .del node => ∃ σ', Ends s.table (.del node) σ' ∧
      Holds σ' (after s.table s.entries (.del node))
  | .findAddr tcbs addr => ∃ fuel, s.table.findTCBAddr fuel tcbs (some addr) =
      some (firstTCB tcbs (fun tcb => tcb.addrGrop = addr) s.entries)
  | .findFd tcbs fd => ∃ fuel, s.table.findTCBFd fuel tcbs fd =
      some (firstTCB tcbs (fun tcb => tcb.fd = fd) s.entries)

/-- The deleted node is the last one, and a lookup is decided by the first one. -/
def TableCall.Sound (entries : List (Ptr × Ptr)) : TableCall → Prop
  | .add _ => True
  | .del node => (entries.map Prod.fst).getLast? = some node
  | .findAddr tcbs addr => FirstMatches tcbs (fun tcb => tcb.addrGrop = addr) entries
  | .findFd tcbs fd => FirstMatches tcbs (fun tcb => tcb.fd = fd) entries

/-- Runs from `initTCP` whose calls are all legal and sound. -/
def soundRuns : TSys Run TableCall where
  init s := s = ⟨unset.initTCP, []⟩
  step s call s' := call.Legal s.entries ∧ call.Sound s.entries ∧
    call.Ends s.table s'.table ∧ s'.entries = call.after s.table s.entries

/-! ## When a call is right -/

variable {s : Run} {call : TableCall}

/-- Without the last of the nodes. -/
theorem filter_last {pre : List (Ptr × Ptr)} {e : Ptr × Ptr}
    (h : ((pre ++ [e]).map Prod.fst).Nodup) :
    (pre ++ [e]).filter (fun e' => e'.1 ≠ e.1) = pre := by
  rw [List.map_append, List.map_singleton] at h
  have hout : e.1 ∉ pre.map Prod.fst := (List.nodup_append_comm.mp h).notMem
  rw [List.filter_append, List.filter_cons_of_neg (by simp), List.filter_nil, List.append_nil,
    List.filter_eq_self]
  intro e' he'
  rw [decide_eq_true_iff]
  intro heq
  exact hout (heq ▸ List.mem_map_of_mem he')

/-- A deletion leaves the nodes in front of the deleted one. -/
theorem del_right_iff (h : Holds s.table s.entries) {node : Ptr}
    (hlegal : node ∈ s.entries.map Prod.fst) :
    TableCall.Right s (.del node) ↔ (s.entries.map Prod.fst).getLast? = some node := by
  obtain ⟨e, he, hnode⟩ := List.mem_map.mp hlegal
  obtain ⟨pre, post, hsplit⟩ := List.mem_iff_append.mp he
  subst hnode
  have hholds := h
  rw [hsplit] at hholds
  obtain ⟨fuel, σ', hdel, hpre⟩ := delTCBNode_holds hholds
  have hnodup : (s.entries.map Prod.fst).Nodup := (List.nodup_cons.mp h.distinct).2
  rw [hsplit] at hnodup
  simp only [TableCall.Right, TableCall.after, hsplit]
  constructor
  · intro ⟨τ, hends, hτ⟩
    cases hends with
    | del hdel' =>
        rw [delTCBNode_unique hdel' hdel] at hτ
        have hnodes := hpre.nodes_unique hτ
        -- what stood behind the node is in the list but not in the chain
        cases post with
        | nil => simp
        | cons x post =>
            exfalso
            have hx : x.1 ≠ e.1 := by
              intro heq
              rw [List.map_append, List.map_cons, List.map_cons, heq] at hnodup
              simpa using hnodup.of_append_right
            have hmem : x.1 ∈ pre.map Prod.fst := by
              rw [hnodes]
              apply List.mem_map_of_mem
              simp [hx]
            rw [List.map_append] at hnodup
            exact List.disjoint_of_nodup_append hnodup hmem (by simp)
  · intro hlast
    have hpost : post = [] := by
      by_contra hne
      obtain ⟨post', x, rfl⟩ := List.eq_nil_or_concat post |>.resolve_left hne
      rw [List.concat_eq_append, List.map_append, List.map_cons, List.map_append,
        List.map_singleton] at hlast hnodup
      rw [← List.cons_append, ← List.append_assoc, List.getLast?_concat] at hlast
      rw [Option.some.inj hlast] at hnodup
      simpa using hnodup.of_append_right
    subst hpost
    rw [filter_last hnodup]
    exact ⟨σ', .del hdel, hpre⟩

theorem right_iff (h : Holds s.table s.entries) (hlegal : call.Legal s.entries) :
    call.Right s ↔ call.Sound s.entries := by
  cases call with
  | add tcb =>
      constructor
      · intro _
        trivial
      · intro _
        obtain ⟨fuel, σ', hadd, hholds⟩ := newNode_addTCBNode h tcb
        exact ⟨σ', .add hadd, hholds⟩
  | del node => exact del_right_iff h hlegal
  | findAddr tcbs addr =>
      have hsame : (fun tcb : TCB => decide (isSameAddr tcb.addrGrop addr = 0)) =
          fun tcb => decide (tcb.addrGrop = addr) := by
        funext tcb
        simp only [isSameAddr_eq_zero]
      simp only [TableCall.Right, findTCBAddr, hsame]
      exact findLoop_iff h hlegal
  | findFd tcbs fd => exact findLoop_iff h hlegal

/-- A sound call keeps the list in the chain. -/
theorem step_holds {s' : Run} (h : Holds s.table s.entries)
    (hstep : soundRuns.step s call s') : Holds s'.table s'.entries := by
  obtain ⟨σ', entries'⟩ := s'
  obtain ⟨hlegal, hsound, hends, hentries⟩ := hstep
  have hright := (right_iff h hlegal).mpr hsound
  simp only at hends hentries ⊢
  rw [hentries]
  cases hends with
  | add hadd =>
      obtain ⟨fuel, σ', hadd', hholds⟩ := newNode_addTCBNode h _
      rw [addTCBNode_unique hadd hadd']
      exact hholds
  | del hdel =>
      obtain ⟨τ, hends, hholds⟩ := hright
      cases hends with
      | del hdel' =>
          rw [delTCBNode_unique hdel hdel']
          exact hholds
  | findAddr _ => exact h
  | findFd _ => exact h

theorem reachable_holds (h : soundRuns.Reachable s) : Holds s.table s.entries := by
  induction h with
  | init hinit =>
      rw [hinit]
      exact Holds.initTCP
  | step _ hstep ih => exact step_holds ih hstep

/-! ## Two nodes -/

/-- A control block added to the table of a run. -/
def Run.add (s : Run) (fuel : Nat) (tcb : Ptr) : Option Run :=
  ((s.table.newNode tcb).2.addTCBNode fuel (s.table.newNode tcb).1).map fun σ' =>
    ⟨σ', TableCall.after s.table s.entries (.add tcb)⟩

theorem add_reachable (h : soundRuns.Reachable s) {s' : Run} {fuel : Nat} {tcb : Ptr}
    (hadd : s.add fuel tcb = some s') : soundRuns.Reachable s' := by
  obtain ⟨σ', hσ', heq⟩ := Option.map_eq_some_iff.mp hadd
  subst heq
  have hlegal : TableCall.Legal s.entries (.add tcb) := trivial
  exact h.step ⟨hlegal, trivial, .add hσ', rfl⟩

/-- The control blocks of two sockets. -/
def twoTCBs : Heap TCB :=
  ((Heap.empty.alloc ⟨⟨0, 0, 0, 0⟩, 0, 0⟩).2.alloc ⟨⟨0, 0, 0, 0⟩, 0, 1⟩).2

def twoNodes : Run := ((Run.add ⟨unset.initTCP, []⟩ 1 1).bind fun s => s.add 2 2).get rfl

theorem twoNodes_reachable : soundRuns.Reachable twoNodes := by
  obtain ⟨s, hs, hs'⟩ := Option.bind_eq_some_iff.mp (Option.some_get
    (show ((Run.add ⟨unset.initTCP, []⟩ 1 1).bind fun s => s.add 2 2).isSome from rfl)).symm
  exact add_reachable (add_reachable (.init rfl) hs) hs'

theorem twoNodes_live : ∀ e ∈ twoNodes.entries, e.2 ∈ twoTCBs.live := by decide

/-- With two nodes in the table, deleting the first one loses the second, and looking up the
second one's descriptor never ends. -/
theorem table_breaks : soundRuns.Reachable twoNodes ∧
    TableCall.Legal twoNodes.entries (.del 2) ∧ ¬ TableCall.Right twoNodes (.del 2) ∧
    TableCall.Legal twoNodes.entries (.findFd twoTCBs 1) ∧
    ¬ TableCall.Right twoNodes (.findFd twoTCBs 1) := by
  have hholds := reachable_holds twoNodes_reachable
  have hlegal : TableCall.Legal twoNodes.entries (.del 2) := by
    show 2 ∈ twoNodes.entries.map Prod.fst
    decide
  refine ⟨twoNodes_reachable, hlegal, ?_, twoNodes_live, ?_⟩
  · rw [right_iff hholds hlegal]
    show ¬ (twoNodes.entries.map Prod.fst).getLast? = some 2
    decide
  · have hfind : TableCall.Legal twoNodes.entries (.findFd twoTCBs 1) := twoNodes_live
    rw [right_iff hholds hfind]
    intro hfirst
    have hsame := hfirst (2, 1) (by decide)
    revert hsame
    decide

/-- **The table.** In every state that sound calls reach, the chain from `TCBList` is the list
of the nodes added and not deleted; and there a legal call does what it should exactly if it
is sound. -/
theorem soundRuns_table (h : soundRuns.Reachable s) :
    Holds s.table s.entries ∧
      ∀ call : TableCall, call.Legal s.entries → (call.Right s ↔ call.Sound s.entries) := by
  have hholds := reachable_holds h
  exact ⟨hholds, fun call hlegal => right_iff hholds hlegal⟩

/-- The theorem at these two nodes: the last one can be deleted. -/
theorem soundRuns_table_two : TableCall.Right twoNodes (.del 3) :=
  ((soundRuns_table twoNodes_reachable).2 (.del 3) (show 3 ∈ _ by decide)).mpr
    (show (twoNodes.entries.map Prod.fst).getLast? = some 3 by decide)

end Table
end LearnSpace.Tcp
