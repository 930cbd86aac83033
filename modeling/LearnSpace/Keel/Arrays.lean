import LearnSpace.Keel.Buffer
import LearnSpace.Keel.Heap

/-!
# Arrays on the heap

A cell holds a whole array. The elements of a new array are not assigned, and reading one
that is not assigned has no defined behaviour, as has every access outside the array.

An object that keeps a sequence in an array has its elements in front (`Begins`); what
lies behind them is of no interest. Each operation is described by what it does to that
sequence and to the cells of the object.
-/

namespace Keel

/-- A heap of arrays. An element is `none` until it is assigned. -/
abbrev Arrays (α : Type*) := Heap (List (Option α))

namespace Arrays

variable {α : Type*}

/-- A new array of `n` elements. -/
def new (h : Arrays α) (n : Nat) : Ptr × Arrays α := h.alloc (List.replicate n none)

/-- Read an element. -/
def get (h : Arrays α) (p : Ptr) (i : Nat) : Option α := do
  let a ← h.load p
  let x ← a[i]?
  x

/-- Assign an element. -/
def set (h : Arrays α) (p : Ptr) (i : Nat) (x : α) : Option (Arrays α) := do
  let a ← h.load p
  if i < a.length then
    h.store p (a.set i (some x))
  else
    none

/-- Copy `len` elements; all are read before one is written. Copying none follows no
pointer. -/
def move (h : Arrays α) (dst : Ptr) (dstOff : Nat) (src : Ptr) (srcOff len : Nat) :
    Option (Arrays α) :=
  if len = 0 then some h
  else do
    let a ← h.load src
    let xs ← Buffer.slice a srcOff len
    let b ← h.load dst
    let b ← Buffer.blit b dstOff xs
    h.store dst b

/-- The cell an object has through its pointer; null names none. -/
def cells (p : Ptr) : List Ptr := if p = null then [] else [p]

/-- The array at `p` has `n` elements and begins with `xs`. Null is an array without
elements. -/
def Begins (h : Arrays α) (p : Ptr) (n : Nat) (xs : List α) : Prop :=
  (p = null ∧ n = 0 ∧ xs = []) ∨
    ∃ rest, h.cell p = some (xs.map some ++ rest) ∧ xs.length + rest.length = n

variable {h h' : Arrays α} {p q dst src : Ptr} {n m i k : Nat} {x : α} {xs : List α}
  {a b : List (Option α)}

@[simp] theorem cells_null : cells null = [] := if_pos rfl

theorem mem_cells : q ∈ cells p ↔ q = p ∧ p ≠ null := by
  rw [cells]
  split <;> simp [*]

theorem mem_cells_of_cell (hcell : h.cell p = some a) : p ∈ cells p :=
  mem_cells.mpr ⟨rfl, h.ne_null hcell⟩

/-! ## Accesses to a live array -/

/-- A new array replaces the one at `p`. -/
theorem store_spec (hcell : h.cell p = some a) (b : List (Option α)) :
    ∃ h', h.store p b = some h' ∧ h'.cell p = some b ∧
      Heap.Exchange h h' (cells p) (cells p) := by
  obtain ⟨h', hstore, hcell', hbrk⟩ := Heap.store_eq hcell b
  refine ⟨h', hstore, ?_, .overwrite hcell' hbrk (mem_cells_of_cell hcell)⟩
  rw [hcell', Function.update_self]

theorem set_spec (hcell : h.cell p = some a) (hi : i < a.length) (x : α) :
    ∃ h', h.set p i x = some h' ∧ h'.cell p = some (a.set i (some x)) ∧
      Heap.Exchange h h' (cells p) (cells p) := by
  obtain ⟨h', hstore, hcell', hx⟩ := store_spec hcell (a.set i (some x))
  refine ⟨h', ?_, hcell', hx⟩
  simp only [set, Heap.load, hcell, Option.bind_eq_bind, Option.bind_some, if_pos hi, hstore]

/-- What an assignment leaves of the array. -/
theorem set_some (hset : h.set p i x = some h') :
    ∃ a, h.cell p = some a ∧ i < a.length ∧ h'.cell p = some (a.set i (some x)) := by
  unfold set at hset
  obtain ⟨a, ha, hset⟩ := Option.bind_eq_some_iff.mp hset
  split at hset
  · rename_i hi
    obtain ⟨h'', hset', hcell, -⟩ := set_spec ha hi x
    simp only [set, Heap.load, show h.cell p = some a from ha, Option.bind_eq_bind,
      Option.bind_some, if_pos hi, hset, Option.some.injEq] at hset'
    exact ⟨a, ha, hi, hset' ▸ hcell⟩
  · cases hset

/-- Another element is not touched. -/
theorem get_of_set {j : Nat} (hset : h.set p i x = some h') (hne : j ≠ i) :
    h'.get p j = h.get p j := by
  obtain ⟨a, ha, -, hcell⟩ := set_some hset
  simp only [get, Heap.load, ha, hcell, Option.bind_eq_bind, Option.bind_some,
    List.getElem?_set_ne hne.symm]

theorem move_spec (dstOff srcOff len : Nat) (hsrc : h.cell src = some a)
    (hdst : h.cell dst = some b) (hread : srcOff + len ≤ a.length)
    (hwrite : dstOff + len ≤ b.length) :
    ∃ h', h.move dst dstOff src srcOff len = some h' ∧
      h'.cell dst = some (b.take dstOff ++ (a.drop srcOff).take len ++ b.drop (dstOff + len)) ∧
      Heap.Exchange h h' (cells dst) (cells dst) := by
  by_cases hlen : len = 0
  · subst hlen
    refine ⟨h, if_pos rfl, ?_, .refl h _⟩
    rw [List.take_zero, List.append_nil, Nat.add_zero, List.take_append_drop, hdst]
  · have hlength : ((a.drop srcOff).take len).length = len :=
      Buffer.length_slice (Buffer.slice_eq hread)
    have hfits : dstOff + ((a.drop srcOff).take len).length ≤ b.length := by
      rw [hlength]
      exact hwrite
    have hblit := Buffer.blit_eq hfits
    rw [hlength] at hblit
    obtain ⟨h', hstore, hcell', hx⟩ := store_spec hdst
      (b.take dstOff ++ (a.drop srcOff).take len ++ b.drop (dstOff + len))
    refine ⟨h', ?_, hcell', hx⟩
    simp only [move, if_neg hlen, Heap.load, hsrc, hdst, Buffer.slice_eq hread, hblit, hstore,
      Option.bind_eq_bind, Option.bind_some]

theorem get_spec (hcell : h.cell p = some a) {x : α} (hx : a[i]? = some (some x)) :
    h.get p i = some x := by
  simp only [get, Heap.load, hcell, hx, Option.bind_eq_bind, Option.bind_some]

/-- Whoever copies elements has room for them. -/
theorem move_some {dstOff srcOff len : Nat} (hmove : h.move dst dstOff src srcOff len = some h')
    (hlen : len ≠ 0) : ∃ b, h.cell dst = some b ∧ dstOff + len ≤ b.length := by
  rw [move, if_neg hlen] at hmove
  simp only [Option.bind_eq_bind, Option.bind_eq_some_iff] at hmove
  obtain ⟨a, -, xs, hxs, b, hb, c, hc, -⟩ := hmove
  refine ⟨b, hb, ?_⟩
  rw [← Buffer.length_slice hxs]
  exact (Buffer.length_blit hc).1

/-! ## Sequences at the front of an array -/

theorem begins_null (h : Arrays α) : Begins h null 0 [] := .inl ⟨rfl, rfl, rfl⟩

theorem begins_new (h : Arrays α) (n : Nat) : Begins (h.new n).2 (h.new n).1 n [] := by
  refine .inr ⟨List.replicate n none, ?_, ?_⟩
  · exact Function.update_self ..
  · rw [List.length_nil, Nat.zero_add, List.length_replicate]

/-- Making an array takes a cell that nobody has. -/
theorem exchange_new (h : Arrays α) (n : Nat) :
    Heap.Exchange h (h.new n).2 [] (cells (h.new n).1) := by
  refine .alloc h _ (fun q => ?_)
  have hne : (h.new n).1 ≠ null := Nat.ne_of_gt h.null_lt_brk
  rw [mem_cells, or_iff_left List.not_mem_nil]
  exact and_iff_left hne

namespace Begins

theorem length_le (s : Begins h p n xs) : xs.length ≤ n := by
  rcases s with ⟨-, -, rfl⟩ | ⟨rest, -, hlength⟩
  · exact Nat.zero_le _
  · omega

theorem cells_live (s : Begins h p n xs) : ∀ q ∈ cells p, q ∈ h.live := by
  intro q hq
  obtain ⟨rfl, hp⟩ := mem_cells.mp hq
  rcases s with ⟨hnull, -, -⟩ | ⟨rest, hcell, -⟩
  · exact absurd hnull hp
  · exact Heap.mem_live.mpr ⟨_, hcell⟩

/-- An array with elements is a live one. -/
theorem cell (s : Begins h p n xs) (hn : 0 < n) :
    ∃ rest, h.cell p = some (xs.map some ++ rest) ∧ xs.length + rest.length = n := by
  rcases s with ⟨-, rfl, -⟩ | hcell
  · cases hn
  · exact hcell

theorem congr (s : Begins h p n xs) (hcell : ∀ q ∈ cells p, h'.cell q = h.cell q) :
    Begins h' p n xs := by
  rcases s with hnull | ⟨rest, hp, hlength⟩
  · exact .inl hnull
  · exact .inr ⟨rest, (hcell p (mem_cells_of_cell hp)).trans hp, hlength⟩

theorem get (s : Begins h p n xs) (hi : i < xs.length) : h.get p i = xs[i]? := by
  obtain ⟨rest, hcell, -⟩ := s.cell (Nat.lt_of_lt_of_le (Nat.zero_lt_of_lt hi) s.length_le)
  have hmap : (xs.map some ++ rest)[i]? = some xs[i]? := by
    rw [List.getElem?_append_left (by rwa [List.length_map]), List.getElem?_map,
      List.getElem?_eq_getElem hi, Option.map_some]
  simp only [Arrays.get, Heap.load, hcell, Option.bind_eq_bind, Option.bind_some, hmap]

theorem set (s : Begins h p n xs) (hi : i < xs.length) (x : α) :
    ∃ h', h.set p i x = some h' ∧ Begins h' p n (xs.set i x) ∧
      Heap.Exchange h h' (cells p) (cells p) := by
  obtain ⟨rest, hcell, hlength⟩ :=
    s.cell (Nat.lt_of_lt_of_le (Nat.zero_lt_of_lt hi) s.length_le)
  have hi' : i < (xs.map some).length := by rwa [List.length_map]
  obtain ⟨h', hset, hcell', hx⟩ :=
    set_spec hcell (by rw [List.length_append]; exact Nat.lt_add_right _ hi') x
  refine ⟨h', hset, .inr ⟨rest, ?_, ?_⟩, hx⟩
  · rw [hcell', List.set_append_left _ _ hi', List.map_set]
  · rwa [List.length_set]

/-- Behind the array nothing can be assigned. -/
theorem set_none (s : Begins h p n xs) (hi : n ≤ i) (x : α) : h.set p i x = none := by
  rcases s with ⟨rfl, -, -⟩ | ⟨rest, hcell, hlength⟩
  · simp only [Arrays.set, Heap.load_null, Option.bind_eq_bind, Option.bind_none]
  · have hout : ¬ i < (xs.map some ++ rest).length := by
      rw [List.length_append, List.length_map]
      omega
    simp only [Arrays.set, Heap.load, hcell, Option.bind_eq_bind, Option.bind_some, if_neg hout]

/-- The first element behind the sequence is assigned. -/
theorem push (s : Begins h p n xs) (hroom : xs.length < n) (x : α) :
    ∃ h', h.set p xs.length x = some h' ∧ Begins h' p n (xs ++ [x]) ∧
      Heap.Exchange h h' (cells p) (cells p) := by
  obtain ⟨rest, hcell, hlength⟩ := s.cell (Nat.zero_lt_of_lt hroom)
  cases rest with
  | nil =>
      rw [List.length_nil, Nat.add_zero] at hlength
      omega
  | cons y rest =>
      obtain ⟨h', hset, hcell', hx⟩ := set_spec hcell (i := xs.length) (by simp) x
      refine ⟨h', hset, .inr ⟨rest, ?_, ?_⟩, hx⟩
      · rw [hcell', List.set_append_right _ _ (by rw [List.length_map]), List.length_map,
          Nat.sub_self, List.set_cons_zero, List.map_append, List.append_assoc]
        rfl
      · rw [List.length_append, List.length_singleton, ← hlength, List.length_cons]
        omega

/-- The elements from `j` on move to position `i`, towards the front or, where there is
room, towards the back. -/
theorem rejoin {j : Nat} (s : Begins h p n xs) (hi : i ≤ xs.length) (hj : j ≤ xs.length)
    (hroom : i + (xs.length - j) ≤ n) :
    ∃ h', h.move p i p j (xs.length - j) = some h' ∧
      Begins h' p n (xs.take i ++ xs.drop j) ∧ Heap.Exchange h h' (cells p) (cells p) := by
  rcases s with ⟨rfl, rfl, rfl⟩ | ⟨rest, hcell, hlength⟩
  · -- null has no elements to move
    refine ⟨h, if_pos ?_, ?_, .refl h _⟩
    · rw [List.length_nil, Nat.zero_sub]
    · rw [List.take_nil, List.drop_nil]
      exact begins_null h
  · have hfits : (xs.map some ++ rest).length = n := by
      rw [List.length_append, List.length_map, hlength]
    obtain ⟨h', hmove, hcell', hx⟩ := move_spec i j (xs.length - j) hcell hcell
      (by omega) (by omega)
    refine ⟨h', hmove, .inr ⟨(xs.map some ++ rest).drop (i + (xs.length - j)), ?_, ?_⟩, hx⟩
    · -- the moved elements are all assigned ones
      have htaken : ((xs.map some ++ rest).drop j).take (xs.length - j) =
          (xs.drop j).map some := by
        rw [List.drop_append_of_le_length (by rwa [List.length_map]), ← List.map_drop,
          List.take_append_of_le_length (by rw [List.length_map, List.length_drop]),
          List.take_of_length_le (by rw [List.length_map, List.length_drop])]
      rw [hcell', htaken, List.map_append,
        List.take_append_of_le_length (by rwa [List.length_map]), List.map_take]
    · rw [List.length_append, List.length_take, List.length_drop, List.length_drop, hfits]
      omega

/-- They move only where there is room. -/
theorem room_of_move {j : Nat} (s : Begins h p n xs) (hi : i ≤ xs.length)
    (hmove : h.move p i p j (xs.length - j) = some h') : i + (xs.length - j) ≤ n := by
  by_cases hlen : xs.length - j = 0
  · have hn := s.length_le
    omega
  · obtain ⟨b, hb, hfits⟩ := move_some hmove hlen
    obtain ⟨rest, hcell, hlength⟩ := s.cell (by have hn := s.length_le; omega)
    rw [hcell] at hb
    cases hb
    rw [List.length_append, List.length_map, hlength] at hfits
    exact hfits

/-- The elements behind position `i` are moved one to the front. -/
theorem erase (s : Begins h p n xs) (hi : i < xs.length) :
    ∃ h', h.move p i p (i + 1) (xs.length - (i + 1)) = some h' ∧
      Begins h' p n (xs.eraseIdx i) ∧ Heap.Exchange h h' (cells p) (cells p) := by
  have hn := s.length_le
  rw [List.eraseIdx_eq_take_drop_succ]
  exact s.rejoin (Nat.le_of_lt hi) hi (by omega)

/-- A new array takes over the sequence. -/
theorem copy (s : Begins h p n xs) (hroom : xs.length ≤ m) :
    ∃ h', (h.new m).2.move (h.new m).1 0 p 0 xs.length = some h' ∧
      Begins h' (h.new m).1 m xs ∧ Heap.Exchange h h' [] (cells (h.new m).1) := by
  rcases s with ⟨-, -, rfl⟩ | ⟨rest, hcell, hlength⟩
  · -- from null there is nothing to copy
    exact ⟨_, if_pos rfl, begins_new h m, exchange_new h m⟩
  · -- the allocation leaves the old array alone
    have hnew := exchange_new h m
    obtain ⟨-, hkeep⟩ := hnew.other (Heap.mem_live.mpr ⟨_, hcell⟩) List.not_mem_nil
    have hcell' : (h.new m).2.cell (h.new m).1 = some (List.replicate m none) :=
      Function.update_self ..
    obtain ⟨h', hmove, hmoved, hx⟩ :=
      move_spec 0 0 xs.length (hkeep.trans hcell) hcell' (by simp) (by simpa using hroom)
    refine ⟨h', hmove, .inr ⟨List.replicate (m - xs.length) none, ?_, ?_⟩, hnew.trans hx⟩
    · rw [hmoved]
      simp
    · rw [List.length_replicate]
      omega

/-- A new array that is too small takes over nothing. -/
theorem copy_none (hsmall : m < k) : (h.new m).2.move (h.new m).1 0 p 0 k = none := by
  cases hmove : (h.new m).2.move (h.new m).1 0 p 0 k with
  | none => rfl
  | some h' =>
      have hcell : (h.new m).2.cell (h.new m).1 = some (List.replicate m none) :=
        Function.update_self ..
      obtain ⟨b, hb, hfits⟩ := move_some hmove (Nat.ne_of_gt (Nat.zero_lt_of_lt hsmall))
      rw [hcell] at hb
      cases hb
      rw [List.length_replicate] at hfits
      omega

theorem free (s : Begins h p n xs) (hp : p ≠ null) :
    ∃ h', h.free p = some h' ∧ Heap.Exchange h h' (cells p) [] := by
  have hmem : p ∈ cells p := mem_cells.mpr ⟨rfl, hp⟩
  obtain ⟨y, hy⟩ := Heap.mem_live.mp (s.cells_live p hmem)
  obtain ⟨h', hfree, -⟩ := Heap.free_eq hy
  refine ⟨h', hfree, .free hfree hmem (fun q => ?_)⟩
  rw [mem_cells]
  simp only [List.not_mem_nil, false_iff]
  exact fun hq => hq.2 hq.1.1

end Begins

end Arrays
end Keel
