import LearnSpace.Keel.Heap
import LearnSpace.Keel.Walk

/-!
# The table of control blocks

`TCBList` of `TCP/tcp.c`: a chain of nodes behind a head node that `initTCP` allocates, each
with a pointer to its control block. `nextTcb` is read as a pointer to a node.

The loops of `addTCBNode`, `delTCBNode` and `findTCB` take fuel. A result is one that some
amount of fuel gives; a loop that does not end, and an access through a pointer to nothing,
have none.
-/

namespace LearnSpace.Tcp

open Keel Function

/-! ## The code -/

/-- `AddrGrop` -/
structure AddrGrop where
  srcIp : UInt32
  desIp : UInt32
  srcPort : UInt16
  desPort : UInt16
  deriving DecidableEq

/-- `TcpControlBlock`, without the buffers, which no function of the table uses. -/
structure TCB where
  addrGrop : AddrGrop
  state : Int32
  fd : Int32
  deriving DecidableEq

/-- `TCBNode`; `rte_malloc` hands out zeroed ones. -/
structure TCBNode where
  tcb : Ptr := null
  nextTcb : Ptr := null
  deriving DecidableEq

/-- `TCBList` and the nodes there are. -/
structure Table where
  TCBList : Ptr
  nodes : Heap TCBNode

/-- `isSameAddr(a, b)` -/
def isSameAddr (a b : AddrGrop) : Int32 :=
  if a.srcIp = b.srcIp ∧ a.desIp = b.desIp ∧ a.srcPort = b.srcPort ∧ a.desPort = b.desPort
  then 0 else -1

namespace Table

/-- `p->nextTcb` -/
def nextOf (h : Heap TCBNode) : Ptr → Option Ptr := h.field TCBNode.nextTcb

/-- `p->tcb` -/
def tcbOf (h : Heap TCBNode) : Ptr → Option Ptr := h.field TCBNode.tcb

/-- `p->nextTcb = q` -/
def setNext (h : Heap TCBNode) (p q : Ptr) : Option (Heap TCBNode) :=
  h.modify p fun node => { node with nextTcb := q }

/-- Before the program does anything. -/
def unset : Table := ⟨null, .empty⟩

/-- What `initTCP()` does to the table. -/
def initTCP (σ : Table) : Table :=
  if σ.TCBList = null then
    let (head, nodes) := σ.nodes.alloc {}
    ⟨head, nodes⟩
  else σ

/-- `addTCBNode(node)` -/
def addTCBNode (fuel : Nat) (σ : Table) (node : Ptr) : Option Table :=
  if node = null then some σ
  else do
    let tail ← Fuel.loop (Fuel.walk (nextOf σ.nodes) null) fuel σ.TCBList
    let nodes ← setNext σ.nodes tail node
    return { σ with nodes := nodes }

/-- `delTCBNode(node)` -/
def delTCBNode (fuel : Nat) (σ : Table) (node : Ptr) : Option Table :=
  if node = null then some σ
  else do
    let preNode ← Fuel.loop (Fuel.walk (nextOf σ.nodes) node) fuel σ.TCBList
    let nodes ← setNext σ.nodes preNode null
    let nodes ← nodes.free node
    return { σ with nodes := nodes }

/-- A turn of the loop of `findTCB`, over the control blocks `tcbs`. Nothing in it moves
`node`. -/
def findTurn (σ : Table) (tcbs : Heap TCB) (same : TCB → Bool) (node : Ptr) :
    Option (Ptr ⊕ Ptr) :=
  if node = null then some (.inr null)
  else do
    let p ← tcbOf σ.nodes node
    let tcb ← tcbs.load p
    return if same tcb then .inr p else .inl node

/-- The loop of `findTCB`, from the first node behind the head. -/
def findLoop (fuel : Nat) (σ : Table) (tcbs : Heap TCB) (same : TCB → Bool) : Option Ptr := do
  let node ← nextOf σ.nodes σ.TCBList
  Fuel.loop (σ.findTurn tcbs same) fuel node

/-- `findTCB(AddrGrop* addr)` -/
def findTCBAddr (fuel : Nat) (σ : Table) (tcbs : Heap TCB) : Option AddrGrop → Option Ptr
  | none => some null
  | some addr => σ.findLoop fuel tcbs fun tcb => isSameAddr tcb.addrGrop addr = 0

/-- `findTCB(int fd)` -/
def findTCBFd (fuel : Nat) (σ : Table) (tcbs : Heap TCB) (fd : Int32) : Option Ptr :=
  σ.findLoop fuel tcbs fun tcb => tcb.fd = fd

/-- A node for `tcb`, fresh from `rte_malloc`, and its address. -/
def newNode (σ : Table) (tcb : Ptr) : Ptr × Table :=
  let (node, nodes) := σ.nodes.alloc { tcb := tcb }
  (node, { σ with nodes := nodes })

/-! ## The table as a list -/

/-- The chain holds exactly the nodes of `entries`, each with its control block, in order. -/
structure Holds (σ : Table) (entries : List (Ptr × Ptr)) : Prop where
  chain : Seg (nextOf σ.nodes) σ.TCBList (entries.map Prod.fst) null
  distinct : (σ.TCBList :: entries.map Prod.fst).Nodup
  tcbs : ∀ e ∈ entries, tcbOf σ.nodes e.1 = some e.2

variable {σ σ' : Table} {entries : List (Ptr × Ptr)} {node tcb : Ptr}

theorem nextOf_null (h : Heap TCBNode) : nextOf h null = none := by
  simp [nextOf, Heap.field]

namespace Holds

/-- What a chain visits is allocated, so null is not on it. -/
theorem null_notMem (h : Holds σ entries) : null ∉ entries.map Prod.fst := by
  intro hmem
  obtain ⟨xs, ys, hsplit⟩ := List.mem_iff_append.mp hmem
  have hseg := h.chain
  rw [hsplit, Seg.append_cons_iff] at hseg
  have hfirst := hseg.2.first
  rw [nextOf_null] at hfirst
  cases hfirst

/-- Every node on the chain, the head included, is live. -/
theorem live (h : Holds σ entries) {p : Ptr} (hp : p ∈ σ.TCBList :: entries.map Prod.fst) :
    ∃ q, nextOf σ.nodes p = some q := by
  rcases List.mem_cons.mp hp with hhead | hmem
  · rw [hhead]
    exact ⟨_, h.chain.first⟩
  · obtain ⟨xs, ys, hsplit⟩ := List.mem_iff_append.mp hmem
    have hseg := h.chain
    rw [hsplit, Seg.append_cons_iff] at hseg
    exact ⟨_, hseg.2.first⟩

/-- A table holds one list of nodes. -/
theorem nodes_unique {entries' : List (Ptr × Ptr)} (h : Holds σ entries)
    (h' : Holds σ entries') : entries.map Prod.fst = entries'.map Prod.fst :=
  Seg.unique (nextOf_null _) h.chain h'.chain

theorem initTCP : Holds (unset.initTCP) [] where
  chain := rfl
  distinct := List.nodup_singleton _
  tcbs := by simp

end Holds

/-! ## Adding -/

theorem newNode_eq (σ : Table) (tcb : Ptr) :
    σ.newNode tcb = ((σ.nodes.alloc { tcb := tcb }).1,
      ⟨σ.TCBList, (σ.nodes.alloc { tcb := tcb }).2⟩) := rfl

/-- A fresh node is not on the chain. -/
theorem newNode_notMem (h : Holds σ entries) (tcb : Ptr) :
    (σ.newNode tcb).1 ∉ σ.TCBList :: entries.map Prod.fst := by
  intro hmem
  obtain ⟨q, hq⟩ := h.live hmem
  have hfresh := σ.nodes.alloc_fresh { tcb := tcb }
  obtain ⟨x, hx, -⟩ := Heap.field_eq_some.mp hq
  rw [newNode_eq] at hx
  rw [hfresh] at hx
  cases hx

/-- Allocation leaves the table as it was. -/
theorem newNode_holds (h : Holds σ entries) (tcb : Ptr) :
    Holds (σ.newNode tcb).2 entries := by
  have hfresh := newNode_notMem h tcb
  rw [newNode_eq] at hfresh ⊢
  refine ⟨?_, h.distinct, ?_⟩
  · show Seg (nextOf (σ.nodes.alloc _).2) _ _ _
    rw [nextOf, Heap.field_alloc]
    exact h.chain.update_frame hfresh
  · intro e he
    show tcbOf (σ.nodes.alloc _).2 e.1 = some e.2
    rw [tcbOf, Heap.field_alloc, update_of_ne]
    · exact h.tcbs e he
    · intro heq
      exact hfresh (heq ▸ List.mem_cons_of_mem _ (List.mem_map_of_mem he))

/-- A store to a link that is on the chain. -/
theorem exists_setNext (h : Holds σ entries) {p : Ptr}
    (hp : p ∈ σ.TCBList :: entries.map Prod.fst) (q : Ptr) :
    ∃ nodes, setNext σ.nodes p q = some nodes ∧
      nextOf nodes = update (nextOf σ.nodes) p (some q) ∧ tcbOf nodes = tcbOf σ.nodes := by
  obtain ⟨_, hlink⟩ := h.live hp
  obtain ⟨x, hx, -⟩ := Heap.field_eq_some.mp hlink
  obtain ⟨nodes, hmod, -⟩ := Heap.modify_eq hx fun node => { node with nextTcb := q }
  exact ⟨nodes, hmod, Heap.field_modify hmod fun _ => rfl,
    Heap.field_modify_keep hmod fun _ => rfl⟩

/-- `addTCBNode` puts a node that is not on the chain behind the last one. -/
theorem addTCBNode_holds (h : Holds σ entries) (hnode : node ∉ σ.TCBList :: entries.map Prod.fst)
    (hnext : nextOf σ.nodes node = some null) (htcb : tcbOf σ.nodes node = some tcb) :
    ∃ fuel σ', σ.addTCBNode fuel node = some σ' ∧ Holds σ' (entries ++ [(node, tcb)]) := by
  have hne : node ≠ null := by
    intro heq
    rw [heq, nextOf_null] at hnext
    cases hnext
  have hlast : (entries.map Prod.fst).getLastD σ.TCBList ∈ σ.TCBList :: entries.map Prod.fst :=
    List.getLastD_mem_cons
  have hwalk := Fuel.walk_arrives h.chain h.null_notMem
  obtain ⟨nodes, hset, hnext', htcb'⟩ := exists_setNext h hlast node
  refine ⟨(entries.map Prod.fst).length + 1, ⟨σ.TCBList, nodes⟩, ?_, ?_, ?_, ?_⟩
  · simp only [addTCBNode, if_neg hne, hwalk, hset, Option.bind_eq_bind, Option.bind_some,
      Option.pure_def]
  · -- the old chain now leads to the node, and the node to null
    show Seg (nextOf nodes) _ _ _
    rw [hnext', List.map_append, List.map_singleton]
    refine Seg.append_cons_iff.mpr ⟨h.chain.redirect h.distinct, ?_⟩
    rw [Seg.nil_iff, update_of_ne, hnext]
    intro heq
    have heq' : node = (entries.map Prod.fst).getLastD σ.TCBList := heq
    rw [← heq'] at hlast
    exact hnode hlast
  · rw [List.map_append, List.map_singleton, ← List.cons_append]
    exact List.nodup_append_comm.mp (List.nodup_cons.mpr ⟨hnode, h.distinct⟩)
  · intro e he
    show tcbOf nodes e.1 = some e.2
    rw [htcb']
    rcases List.mem_append.mp he with hold | hnew
    · exact h.tcbs e hold
    · rw [List.mem_singleton.mp hnew]
      exact htcb

/-- A fresh node with its control block, added. -/
theorem newNode_addTCBNode (h : Holds σ entries) (tcb : Ptr) :
    ∃ fuel σ', (σ.newNode tcb).2.addTCBNode fuel (σ.newNode tcb).1 = some σ' ∧
      Holds σ' (entries ++ [((σ.newNode tcb).1, tcb)]) := by
  apply addTCBNode_holds (newNode_holds h tcb) (newNode_notMem h tcb)
  · show nextOf (σ.nodes.alloc { tcb := tcb }).2 (σ.nodes.alloc { tcb := tcb }).1 = _
    rw [nextOf, Heap.field_alloc, update_self]
  · show tcbOf (σ.nodes.alloc { tcb := tcb }).2 (σ.nodes.alloc { tcb := tcb }).1 = _
    rw [tcbOf, Heap.field_alloc, update_self]

/-- The result of `addTCBNode` does not depend on the fuel. -/
theorem addTCBNode_unique {n m : Nat} {τ : Table} (h : σ.addTCBNode n node = some σ')
    (h' : σ.addTCBNode m node = some τ) : σ' = τ := by
  unfold addTCBNode at h h'
  split at h
  · rw [if_pos ‹_›] at h'
    cases h
    exact Option.some.inj h'
  · rw [if_neg ‹_›] at h'
    obtain ⟨p, hp, hrest⟩ := Option.bind_eq_some_iff.mp h
    obtain ⟨q, hq, hrest'⟩ := Option.bind_eq_some_iff.mp h'
    rw [Fuel.loop_unique hp hq] at hrest
    exact Option.some.inj (hrest.symm.trans hrest')

/-! ## Deleting -/

/-- `delTCBNode` takes the node out together with everything behind it. -/
theorem delTCBNode_holds {pre post : List (Ptr × Ptr)} {e : Ptr × Ptr}
    (h : Holds σ (pre ++ e :: post)) :
    ∃ fuel σ', σ.delTCBNode fuel e.1 = some σ' ∧ Holds σ' pre := by
  have hmap : (pre ++ e :: post).map Prod.fst = pre.map Prod.fst ++ e.1 :: post.map Prod.fst := by
    rw [List.map_append, List.map_cons]
  have hchain := h.chain
  have hdistinct := h.distinct
  rw [hmap] at hchain hdistinct
  obtain ⟨hpre, _⟩ := Seg.append_cons_iff.mp hchain
  rw [← List.cons_append] at hdistinct
  have hnodup : (σ.TCBList :: pre.map Prod.fst).Nodup := hdistinct.of_append_left
  have hout : e.1 ∉ σ.TCBList :: pre.map Prod.fst := by
    intro hmem
    exact List.disjoint_of_nodup_append hdistinct hmem List.mem_cons_self
  have hmem : e.1 ∈ σ.TCBList :: (pre ++ e :: post).map Prod.fst := by
    rw [hmap]
    simp
  have hne : e.1 ≠ null := by
    intro heq
    apply h.null_notMem
    rw [hmap, ← heq]
    simp
  have hlast : (pre.map Prod.fst).getLastD σ.TCBList ∈ σ.TCBList :: pre.map Prod.fst :=
    List.getLastD_mem_cons
  have hlast' : (pre.map Prod.fst).getLastD σ.TCBList ∈
      σ.TCBList :: (pre ++ e :: post).map Prod.fst := by
    rw [hmap, ← List.cons_append]
    exact List.mem_append_left _ hlast
  have hwalk := Fuel.walk_arrives hpre fun hin => hout (List.mem_cons_of_mem _ hin)
  obtain ⟨nodes, hset, hnext, htcb⟩ := exists_setNext h hlast' null
  have hcell : ∃ x, nodes.cell e.1 = some x := by
    obtain ⟨x, hx, -⟩ := Heap.field_eq_some.mp ((congrFun htcb e.1).trans
      (h.tcbs e (List.mem_append_right _ List.mem_cons_self)))
    exact ⟨x, hx⟩
  obtain ⟨x, hx⟩ := hcell
  obtain ⟨freed, hfree, -⟩ := Heap.free_eq hx
  refine ⟨(pre.map Prod.fst).length + 1, ⟨σ.TCBList, freed⟩, ?_, ?_, hnodup, ?_⟩
  · simp only [delTCBNode, if_neg hne, hwalk, hset, hfree, Option.bind_eq_bind, Option.bind_some,
      Option.pure_def]
  · show Seg (nextOf freed) _ _ _
    rw [nextOf, Heap.field_free hfree]
    apply Seg.update_frame hout
    rw [← nextOf, hnext]
    exact hpre.redirect hnodup
  · intro e' he'
    have hne' : e'.1 ≠ e.1 := by
      intro heq
      exact hout (heq ▸ List.mem_cons_of_mem _ (List.mem_map_of_mem he'))
    show tcbOf freed e'.1 = some e'.2
    rw [tcbOf, Heap.field_free hfree, update_of_ne hne', ← tcbOf, htcb]
    exact h.tcbs e' (List.mem_append_left _ he')

/-- The result of `delTCBNode` does not depend on the fuel. -/
theorem delTCBNode_unique {n m : Nat} {τ : Table} (h : σ.delTCBNode n node = some σ')
    (h' : σ.delTCBNode m node = some τ) : σ' = τ := by
  unfold delTCBNode at h h'
  split at h
  · rw [if_pos ‹_›] at h'
    cases h
    exact Option.some.inj h'
  · rw [if_neg ‹_›] at h'
    obtain ⟨p, hp, hrest⟩ := Option.bind_eq_some_iff.mp h
    obtain ⟨q, hq, hrest'⟩ := Option.bind_eq_some_iff.mp h'
    rw [Fuel.loop_unique hp hq] at hrest
    exact Option.some.inj (hrest.symm.trans hrest')

end Table
end LearnSpace.Tcp
