import LearnSpace.Keel.Fuel
import LearnSpace.KvStore.ByteArrayFind

/-!
# Splitting a byte array

`split` cuts at each place where `find` says that the separator stands, and goes on behind
it. As long as the separator stands somewhere in the content `find` stops there, so the
cuts are the leftmost ones. The last search goes through the rest, and comes to the bytes
behind the content wherever the rest ends in a beginning of the separator: there they
decide whether one more piece is cut, or the search runs off the buffer.

An empty separator stands everywhere, and the position does not get behind it.
-/

namespace LearnSpace.KvStore

open Keel

/-- The leftmost cuts: each piece ends where `value` stands for the first time, and it does
not stand in the rest. -/
inductive Cuts (value : List Byte) : List Byte → List (List Byte) → List Byte → Prop
  | rest {r : List Byte} : (∀ i, ¬ Occurs r value i) → Cuts value r [] r
  | cut {p xs r : List Byte} {ps : List (List Byte)} :
      (∀ i, i < p.length → ¬ Occurs (p ++ value ++ xs) value i) → Cuts value xs ps r →
        Cuts value (p ++ value ++ xs) (p :: ps) r

namespace Block

/-- One iteration of `split`, from the position and the pieces so far. -/
def splitBody (a : Block) (value : List Byte) (q : Nat × List Bytes) :
    Option ((Nat × List Bytes) ⊕ List Bytes) := do
  let (pos, ret) := q
  match ← a.find value pos with
  | (none, _) => return .inr ret
  | (some index, _) =>
    let temp := Bytes.ofPtrLen ((a.buffer.drop pos).take (index - pos))
    return .inl (index + value.length, ret ++ [temp])

/-- `split`. -/
def split (a : Block) (value : List Byte) (fuel : Nat) : Option (List Bytes) :=
  Fuel.loop (a.splitBody value) fuel (0, [])

end Block

section Split

variable {a : Block} {value : List Byte} {pos : Nat} {ret ret' : List Bytes}

/-! ## Pieces and the rest -/

namespace Cuts

variable {xs r : List Byte} {ps : List (List Byte)}

/-- The pieces, each with the separator behind it, and the rest are the whole. -/
theorem joined (h : Cuts value xs ps r) : xs = ps.flatMap (· ++ value) ++ r := by
  induction h with
  | rest _ => rfl
  | @cut p ys r ps _ _ ih => rw [List.flatMap_cons, List.append_assoc (p ++ value), ← ih]

theorem length_le (h : Cuts value xs ps r) : r.length ≤ xs.length := by
  rw [h.joined, List.length_append]
  exact Nat.le_add_left ..

/-- A cut is where the separator stands. -/
theorem occurs_cut (hvalue : value ≠ []) (p ys : List Byte) :
    Occurs (p ++ value ++ ys) value p.length := by
  have hpos := List.length_pos_iff.mpr hvalue
  refine ⟨?_, ys, ?_⟩
  · simp only [List.length_append]
    omega
  · rw [List.append_assoc p, List.drop_left]

/-- There is only one way to cut. -/
theorem unique (hvalue : value ≠ []) (h : Cuts value xs ps r) :
    ∀ {ps' : List (List Byte)} {r' : List Byte}, Cuts value xs ps' r' → ps' = ps ∧ r' = r := by
  induction h with
  | @rest r hnone =>
      intro ps' r' h'
      cases h' with
      | rest _ => exact ⟨rfl, rfl⟩
      | cut _ _ => exact absurd (occurs_cut hvalue _ _) (hnone _)
  | @cut p ys r ps hfirst hrest ih =>
      intro ps' r' h'
      generalize hxs : p ++ value ++ ys = xs at h' hfirst
      cases h' with
      | rest hnone =>
          subst hxs
          exact absurd (occurs_cut hvalue p ys) (hnone _)
      | @cut p' ys' r' ps' hfirst' hrest' =>
          -- neither of the two cuts is in front of the other
          have hle : p'.length ≤ p.length := Nat.le_of_not_lt fun hlt =>
            hfirst' _ hlt (hxs ▸ occurs_cut hvalue p ys)
          have hge : p.length ≤ p'.length := Nat.le_of_not_lt fun hlt =>
            hfirst _ hlt (occurs_cut hvalue p' ys')
          rw [List.append_assoc, List.append_assoc] at hxs
          obtain ⟨rfl, hback⟩ := List.append_inj hxs (Nat.le_antisymm hge hle)
          obtain rfl := List.append_cancel_left hback
          obtain ⟨rfl, rfl⟩ := ih hrest'
          exact ⟨rfl, rfl⟩

/-- There is a way to cut. -/
theorem exists_of_ne_nil (hvalue : value ≠ []) :
    ∀ (n : Nat) (xs : List Byte), xs.length ≤ n → ∃ ps r, Cuts value xs ps r := by
  have hpos := List.length_pos_iff.mpr hvalue
  intro n
  induction n with
  | zero =>
      intro xs hlength
      exact ⟨[], xs, .rest fun i hocc => by have := hocc.1; omega⟩
  | succ n ih =>
      intro xs hlength
      by_cases hsome : ∃ i, 0 ≤ i ∧ i < xs.length ∧ Occurs xs value i
      · obtain ⟨i, -, hin, hocc, hfirst⟩ := exists_first hsome
        obtain ⟨ys, hys⟩ := hocc.2
        have hsplit : xs = xs.take i ++ value ++ ys := by
          rw [List.append_assoc, hys, List.take_append_drop]
        have hlength' := congrArg List.length hsplit
        simp only [List.length_append] at hlength'
        obtain ⟨ps, r, hrest⟩ := ih ys (by omega)
        have hcuts : Cuts value (xs.take i ++ value ++ ys) (xs.take i :: ps) r := by
          refine .cut (fun k hk => ?_) hrest
          rw [List.length_take] at hk
          rw [← hsplit]
          exact hfirst k (Nat.zero_le k) (by omega)
        rw [← hsplit] at hcuts
        exact ⟨_, r, hcuts⟩
      · exact ⟨[], xs, .rest fun i hocc => hsome ⟨i, Nat.zero_le i, hocc.1, hocc⟩⟩

end Cuts

/-! ## One iteration -/

/-- The last search goes through the rest. -/
theorem splitBody_leave : a.splitBody value (pos, ret) = some (.inr ret') ↔
    ret' = ret ∧ ∀ m, pos ≤ m → m < a.size → DiffersAt a.buffer value (toInt m) := by
  have hfind : (∃ reads, a.find value pos = some (none, reads)) ↔
      ∀ m, pos ≤ m → m < a.size → DiffersAt a.buffer value (toInt m) := by
    refine findFrom_none.trans ?_
    exact forall_congr' fun m => forall_congr' fun hm => imp_congr_left (by omega)
  rw [← hfind, Block.splitBody]
  cases hrun : a.find value pos with
  | none =>
      constructor
      · nofun
      · rintro ⟨-, reads, h⟩
        cases h
  | some s =>
      obtain ⟨found, reads⟩ := s
      cases found with
      | none =>
          constructor
          · intro h
            cases h
            exact ⟨rfl, reads, rfl⟩
          · rintro ⟨rfl, -⟩
            rfl
      | some index =>
          constructor
          · intro h
            cases h
          · rintro ⟨-, reads', h⟩
            cases h

/-- A search that is successful cuts off a piece. -/
theorem splitBody_next {q : Nat × List Bytes} :
    a.splitBody value (pos, ret) = some (.inl q) ↔
      ∃ index, q = (index + value.length,
          ret ++ [Bytes.ofPtrLen ((a.buffer.drop pos).take (index - pos))]) ∧
        pos ≤ index ∧ index < a.size ∧
        (∀ m, pos ≤ m → m < index → DiffersAt a.buffer value (toInt m)) ∧
        StandsAt a.buffer value (toInt index) := by
  have hfind (index : Nat) : (∃ reads, a.find value pos = some (some index, reads)) ↔
      pos ≤ index ∧ index < a.size ∧
        (∀ m, pos ≤ m → m < index → DiffersAt a.buffer value (toInt m)) ∧
        StandsAt a.buffer value (toInt index) := by
    refine findFrom_some.trans (and_congr_right fun hle => and_congr_left fun _ => ?_)
    omega
  simp only [← hfind]
  rw [Block.splitBody]
  cases hrun : a.find value pos with
  | none =>
      constructor
      · nofun
      · rintro ⟨index, -, reads, h⟩
        cases h
  | some s =>
      obtain ⟨found, reads⟩ := s
      cases found with
      | none =>
          constructor
          · intro h
            cases h
          · rintro ⟨index, -, reads', h⟩
            cases h
      | some index =>
          constructor
          · intro h
            cases h
            exact ⟨index, rfl, reads, rfl⟩
          · rintro ⟨index', rfl, reads', h⟩
            cases h
            rfl

/-! ## Comparisons in a longer memory -/

theorem StandsAt.mono {mem mem' : List Byte} {p : Int} (hmem : mem <+: mem')
    (h : StandsAt mem value p) : StandsAt mem' value p := by
  intro j hj
  obtain ⟨hlow, hhigh, hb⟩ := h j hj
  obtain ⟨rest, rfl⟩ := hmem
  rw [List.getElem?_eq_getElem hj] at hb ⊢
  refine ⟨hlow, hhigh, ?_⟩
  rw [List.getElem?_append_left (List.getElem?_eq_some_iff.mp hb).1, hb]

theorem DiffersAt.mono {mem mem' : List Byte} {p : Int} (hmem : mem <+: mem')
    (h : DiffersAt mem value p) : DiffersAt mem' value p := by
  obtain ⟨hlow, j, hj, hhigh, b, hb, hne⟩ := h
  obtain ⟨rest, rfl⟩ := hmem
  refine ⟨hlow, j, hj, hhigh, b, ?_, hne⟩
  rw [List.getElem?_append_left (List.getElem?_eq_some_iff.mp hb).1, hb]

/-! ## Runs -/

theorem content_initial (a : Block) : a.content <+: a.buffer := List.take_prefix _ _

/-- In front of the place of a cut the separator differs from what stands there: it does so
inside the cut, whatever comes behind. -/
theorem differsAt_of_first {front p ys : List Byte} {mem : List Byte}
    (hmem : front ++ p ++ value <+: mem) (hbound : (front ++ p ++ value).length < 2 ^ 31)
    (hfirst : ∀ i, i < p.length → ¬ Occurs (p ++ value ++ ys) value i) {m : Nat}
    (hlow : front.length ≤ m) (hhigh : m < front.length + p.length) :
    DiffersAt mem value (toInt m) := by
  have hlength : (front ++ p ++ value).length = front.length + p.length + value.length := by
    simp only [List.length_append]
  obtain ⟨i, rfl⟩ := Nat.exists_eq_add_of_le hlow
  rw [toInt_eq (by omega)]
  refine ((differsAt_natCast (by omega)).mpr ⟨fun hocc => ?_, fun hends => ?_⟩).mono hmem
  · refine hfirst i (by omega) ⟨?_, ?_⟩
    · simp only [List.length_append]
      omega
    · rw [List.append_assoc front, List.drop_length_add_append] at hocc
      refine hocc.trans ⟨ys, ?_⟩
      exact (List.drop_append_of_le_length (by rw [List.length_append]; omega)).symm
  · have hle := hends.length_le
    rw [List.length_drop, hlength] at hle
    omega

/-- One cut. -/
theorem splitBody_cut {front p ys : List Byte} {ret : List Bytes}
    (hcontent : a.content = front ++ (p ++ value ++ ys)) (hvalue : value ≠ [])
    (hbound : (front ++ p ++ value).length < 2 ^ 31)
    (hfirst : ∀ i, i < p.length → ¬ Occurs (p ++ value ++ ys) value i) :
    a.splitBody value (front.length, ret) =
      some (.inl ((front ++ p ++ value).length, ret ++ [Bytes.ofPtrLen p])) := by
  have hpos := List.length_pos_iff.mpr hvalue
  have hsize := a.length_content
  rw [hcontent] at hsize
  simp only [List.length_append] at hsize
  -- what is compared up to here lies in front of the end of the cut
  have hmem : front ++ p ++ value <+: a.buffer := by
    refine .trans ⟨ys, ?_⟩ (content_initial a)
    rw [hcontent]
    simp only [List.append_assoc]
  have hlength : (front ++ p ++ value).length = front.length + p.length + value.length := by
    simp only [List.length_append]
  have hstands : StandsAt a.buffer value (toInt (front.length + p.length)) := by
    rw [toInt_eq (by omega)]
    refine (standsAt_natCast.mpr ⟨.inr (by omega), ?_⟩).mono hmem
    rw [← List.length_append, List.drop_left]
  have hpiece : (a.buffer.drop front.length).take
      (front.length + p.length - front.length) = p := by
    obtain ⟨rest, hbuffer⟩ := hmem
    rw [← hbuffer, List.append_assoc, List.append_assoc, List.drop_left,
      Nat.add_sub_cancel_left, List.take_left]
  rw [hlength]
  exact splitBody_next.mpr ⟨front.length + p.length, by rw [hpiece], by omega, by omega,
    fun _ => differsAt_of_first hmem hbound hfirst, hstands⟩

/-- In a content with leftmost cuts the loop gets to the rest, as long as the cuts end below
2^31. -/
theorem split_goes (hvalue : value ≠ []) {xs r : List Byte} {ps : List (List Byte)}
    (h : Cuts value xs ps r) : ∀ {front : List Byte} {ret : List Bytes},
      a.content = front ++ xs → a.size - r.length < 2 ^ 31 →
      Fuel.Goes (a.splitBody value) ps.length (front.length, ret)
        (a.size - r.length, ret ++ ps.map Bytes.ofPtrLen) := by
  induction h with
  | @rest r hnone =>
      intro front ret hcontent _
      have hlength := a.length_content
      rw [hcontent, List.length_append] at hlength
      rw [show a.size - r.length = front.length by omega, List.map_nil, List.append_nil]
      exact .refl _
  | @cut p ys r ps hfirst hrest ih =>
      intro front ret hcontent hbound
      have hwhole : a.content = front ++ p ++ value ++ ys := by
        rw [hcontent]
        simp only [List.append_assoc]
      have hsize := a.length_content
      have hle := hrest.length_le
      rw [hwhole, List.length_append] at hsize
      have hbody : a.splitBody value (front.length, ret) =
          some (.inl ((front ++ p ++ value).length, ret ++ [Bytes.ofPtrLen p])) :=
        splitBody_cut hcontent hvalue (by omega) hfirst
      have hgoes : Fuel.Goes (a.splitBody value) ps.length
          ((front ++ p ++ value).length, ret ++ [Bytes.ofPtrLen p])
          (a.size - r.length, ret ++ [Bytes.ofPtrLen p] ++ ps.map Bytes.ofPtrLen) :=
        ih hwhole hbound
      rw [List.append_assoc ret, List.singleton_append] at hgoes
      rw [List.length_cons, Nat.add_comm, List.map_cons]
      exact (Fuel.Goes.next hbody).trans hgoes

/-- A position below 2^31 gets behind the next cut without reaching 2^31. -/
theorem index_lt (hvalue : value ≠ []) {mem : List Byte} {index : Nat} (hpos : pos < 2 ^ 31)
    (hdiffers : ∀ m, pos ≤ m → m < index → DiffersAt mem value (toInt m))
    (hstands : StandsAt mem value (toInt index)) : index + value.length < 2 ^ 31 := by
  have hnegative : toInt (2 ^ 31) < 0 := by decide
  have hsome := List.length_pos_iff.mpr hvalue
  have hindex : index < 2 ^ 31 := by
    by_contra hover
    rcases Nat.eq_or_lt_of_le (Nat.le_of_not_lt hover) with heq | hlt
    · rw [← heq] at hstands
      have hlow := (hstands 0 hsome).1
      omega
    · have hlow := (hdiffers (2 ^ 31) (by omega) hlt).1
      omega
  rw [toInt_eq hindex] at hstands
  exact (standsAt_natCast.mp hstands).1.resolve_left hvalue

/-- The pieces so far stay. -/
theorem split_extends {fuel : Nat} {q : Nat × List Bytes}
    (h : Fuel.loop (a.splitBody value) fuel q = some ret) : q.2 <+: ret := by
  refine Fuel.loop_invariant (P := fun q' => q.2 <+: q'.2) (Q := fun ret => q.2 <+: ret)
    ?_ ?_ (List.prefix_refl q.2) h
  · rintro ⟨pos, acc⟩ q' hacc hbody
    obtain ⟨index, rfl, -⟩ := splitBody_next.mp hbody
    exact hacc.trans (List.prefix_append acc _)
  · rintro ⟨pos, acc⟩ ret' hacc hbody
    rw [(splitBody_leave.mp hbody).1]
    exact hacc

/-- A loop that has cut off the right pieces has come below 2^31, and the separator differs
from what stands at each position of the rest. -/
theorem split_back (hvalue : value ≠ []) {fuel : Nat} :
    ∀ {acc : List Bytes} {front xs r : List Byte} {ps : List (List Byte)},
      Fuel.loop (a.splitBody value) fuel (front.length, acc) = some ret →
      Cuts value xs ps r → a.content = front ++ xs → front.length < 2 ^ 31 →
      ret.map Bytes.content = acc.map Bytes.content ++ ps →
      a.size - r.length < 2 ^ 31 ∧
        ∀ m, a.size - r.length ≤ m → m < a.size → DiffersAt a.buffer value (toInt m) := by
  induction fuel with
  | zero => exact fun h => nomatch h
  | succ fuel ih =>
      intro acc front xs r ps hloop hcuts hcontent hfront hpieces
      have hsize := a.length_content
      rw [hcontent, List.length_append] at hsize
      have hinside := a.inside
      rcases Fuel.loop_cases hloop with ⟨q, hbody, hloop'⟩ | hbody
      · obtain ⟨index, rfl, hle, hlt, hdiffers, hstands⟩ := splitBody_next.mp hbody
        obtain ⟨more, hret⟩ := split_extends hloop'
        have hlength : ((a.buffer.drop front.length).take (index - front.length)).length =
            index - front.length := by
          rw [List.length_take, List.length_drop]
          omega
        rw [← hret, List.append_assoc, List.map_append, List.append_cancel_left_eq,
          List.map_append, List.map_singleton, List.singleton_append] at hpieces
        cases hcuts with
        | rest _ => cases hpieces
        | @cut p ys r ps hfirst hrest =>
            obtain ⟨hp, hmore⟩ := List.cons_eq_cons.mp hpieces
            have hp' : p.length = index - front.length := by
              rw [← hlength, ← hp]
              rfl
            have hend : index + value.length = (front ++ p ++ value).length := by
              simp only [List.length_append]
              omega
            have hlt := index_lt hvalue hfront hdiffers hstands
            rw [hend] at hloop' hlt
            refine ih hloop' hrest ?_ hlt ?_
            · rw [hcontent]
              simp only [List.append_assoc]
            · rw [← hret, List.map_append, ← hmore]
      · obtain ⟨rfl, hdiffers⟩ := splitBody_leave.mp hbody
        cases hcuts with
        | rest _ =>
            rw [show a.size - xs.length = front.length by omega]
            exact ⟨hfront, hdiffers⟩
        | cut _ _ =>
            have hlength := congrArg List.length hpieces
            simp only [List.length_append, List.length_cons] at hlength
            omega

/-- With an empty separator the loop does not come to an end. -/
theorem split_empty (hsome : 0 < a.size) (fuel : Nat) :
    ∀ acc : List Bytes, Fuel.loop (a.splitBody []) fuel (0, acc) = none := by
  induction fuel with
  | zero => exact fun _ => rfl
  | succ fuel ih =>
      intro acc
      have hbody : a.splitBody [] (0, acc) = some (.inl (0, acc ++ [Bytes.ofPtrLen []])) :=
        splitBody_next.mpr ⟨0, rfl, Nat.le_refl 0, hsome, fun m _ hm => absurd hm m.not_lt_zero,
          standsAt_nil⟩
      rw [Fuel.loop_next hbody, ih]

/-- So it is right for an empty array only. -/
theorem split_empty_iff (a : Block) :
    (∃ fuel ret rest, a.split [] fuel = some ret ∧
      Cuts [] a.content (ret.map Bytes.content) rest) ↔ a.size = 0 := by
  constructor
  · rintro ⟨fuel, ret, rest, hrun, -⟩
    by_contra hsome
    rw [Block.split, split_empty (Nat.pos_of_ne_zero hsome)] at hrun
    cases hrun
  · intro hnone
    have hcontent : a.content = [] := List.length_eq_zero_iff.mp (a.length_content.trans hnone)
    refine ⟨1, [], [], Fuel.loop_leave (splitBody_leave.mpr ⟨rfl, fun m _ hm => ?_⟩) 0, ?_⟩
    · omega
    · rw [hcontent]
      exact .rest fun i hocc => absurd hocc.1 (Nat.not_lt_zero i)

/-- **`split` cuts at the leftmost places** exactly if the separator is not empty, the cuts
end below 2^31, and at each position of the rest the separator differs from what stands
there, inside the buffer. An empty separator is right for an empty array only. -/
theorem split_iff (a : Block) (value : List Byte) :
    (∃ fuel ret rest, a.split value fuel = some ret ∧
        Cuts value a.content (ret.map Bytes.content) rest) ↔
      (value = [] → a.size = 0) ∧ ∀ pieces rest, Cuts value a.content pieces rest →
        a.size - rest.length < 2 ^ 31 ∧
          ∀ m, a.size - rest.length ≤ m → m < a.size → DiffersAt a.buffer value (toInt m) := by
  have hlength := a.length_content
  by_cases hvalue : value = []
  · subst hvalue
    rw [split_empty_iff]
    exact ⟨fun hempty => ⟨fun _ => hempty, fun pieces rest _ => ⟨by omega, fun m _ hm => by omega⟩⟩,
      fun hright => hright.1 rfl⟩
  · constructor
    · rintro ⟨fuel, ret, rest, hrun, hcuts⟩
      refine ⟨fun h => absurd h hvalue, fun pieces rest' hcuts' => ?_⟩
      obtain ⟨-, rfl⟩ := hcuts.unique hvalue hcuts'
      have hwhole : a.content = [] ++ a.content := rfl
      have hloop : Fuel.loop (a.splitBody value) fuel (([] : List Byte).length, []) = some ret :=
        hrun
      exact split_back hvalue hloop hcuts hwhole (Nat.two_pow_pos 31) rfl
    · rintro ⟨-, hright⟩
      obtain ⟨pieces, rest, hcuts⟩ := Cuts.exists_of_ne_nil hvalue _ a.content (Nat.le_refl _)
      obtain ⟨hbound, hdiffers⟩ := hright pieces rest hcuts
      have hwhole : a.content = [] ++ a.content := rfl
      have hgoes : Fuel.Goes (a.splitBody value) pieces.length (0, [])
          (a.size - rest.length, pieces.map Bytes.ofPtrLen) :=
        split_goes hvalue hcuts hwhole hbound
      have hleave : a.splitBody value (a.size - rest.length, pieces.map Bytes.ofPtrLen) =
          some (.inr (pieces.map Bytes.ofPtrLen)) := splitBody_leave.mpr ⟨rfl, hdiffers⟩
      refine ⟨pieces.length + 1, _, rest, (hgoes 1).trans (Fuel.loop_leave hleave 0), ?_⟩
      rw [List.map_map]
      have hsame : pieces.map (Bytes.content ∘ Bytes.ofPtrLen) = pieces := List.map_id pieces
      rwa [hsame]

end Split

-- the NUL that completes the separator is not in the content
example : (⟨[0x78, 0x41, 0, 0], 2, by decide⟩ : Block).split [0x41, 0] 2 =
    some [.ofPtrLen [0x78]] := by
  decide

/-- An array of one byte cannot be split at the empty separator. -/
theorem split_never_ends :
    ¬ ∃ fuel ret rest, (⟨[0x61], 1, by decide⟩ : Block).split [] fuel = some ret ∧
      Cuts [] [0x61] (ret.map Bytes.content) rest := by
  rintro ⟨fuel, ret, rest, hrun, -⟩
  rw [Block.split, split_empty Nat.zero_lt_one] at hrun
  cases hrun

end LearnSpace.KvStore
