import LearnSpace.Keel.Walk
import LearnSpace.DataStructure.MListSequence

/-!
# Iterating over a list

`end()` points to the last node, and iterators are compared by what their nodes hold. The
loop `it = begin(); it != end(); ++it` so stops in front of the first element that is not
different from the last one, which is never visited; in an empty list both iterators are
null, and the first comparison follows them. There is no list whose content the loop visits
(`iterate_ne_content`): it would have to stop behind the last node, where a comparison
follows a null pointer.
-/

namespace LearnSpace.DataStructure.MList

open Keel

variable {T : Type} {h : Heap (Node T)} {l : MList} {ps : List Ptr} {ts : List T}

/-- `begin()`. -/
def begin' (l : MList) (h : Heap (Node T)) : Option Ptr := nextOf h l.head

/-- `end()`. -/
def end' (l : MList) (h : Heap (Node T)) : Option Ptr :=
  if l.tail ≠ null then some l.tail else nextOf h l.head

/-- `operator!=` of two iterators, over that of the elements. -/
def differ (ne : T → T → Bool) (h : Heap (Node T)) (it other : Ptr) : Option Bool := do
  let data ← dataOf h it
  let data' ← dataOf h other
  return ne data data'

/-- One turn of the loop, which collects the elements it visits. -/
def iterateTurn (ne : T → T → Bool) (l : MList) (h : Heap (Node T)) (s : Ptr × List T) :
    Option ((Ptr × List T) ⊕ List T) := do
  let last ← l.end' h
  if ← differ ne h s.1 last then
    let t ← dataOf h s.1
    let next ← nextOf h s.1
    return .inl (next, s.2 ++ [t])
  return .inr s.2

/-- The elements the loop `it = begin(); it != end(); ++it` visits, with fuel. -/
def iterate (ne : T → T → Bool) (l : MList) (h : Heap (Node T)) (fuel : Nat) :
    Option (List T) := do
  let first ← l.begin' h
  Fuel.loop (iterateTurn ne l h) fuel (first, [])

/-! ## What is visited -/

section Iterate

variable {ne : T → T → Bool} {p : Ptr} {vs : List T}

/-- Every turn compares a node, the last one too. -/
theorem iterateTurn_some {r : (Ptr × List T) ⊕ List T}
    (hturn : iterateTurn ne l h (p, vs) = some r) :
    ∃ t, dataOf h p = some t ∧
      (r = .inr vs ∨ ∃ next, nextOf h p = some next ∧ r = .inl (next, vs ++ [t])) := by
  unfold iterateTurn at hturn
  obtain ⟨last, -, hturn⟩ := Option.bind_eq_some_iff.mp hturn
  obtain ⟨d, hd, hturn⟩ := Option.bind_eq_some_iff.mp hturn
  obtain ⟨t, ht, -⟩ := Option.bind_eq_some_iff.mp hd
  refine ⟨t, ht, ?_⟩
  cases d with
  | false => exact .inl (Option.some.inj hturn).symm
  | true =>
      obtain ⟨t', ht', hturn⟩ := Option.bind_eq_some_iff.mp hturn
      obtain ⟨next, hnext, hturn⟩ := Option.bind_eq_some_iff.mp hturn
      obtain rfl : t = t' := Option.some.inj (ht.symm.trans ht')
      exact .inr ⟨next, hnext, (Option.some.inj hturn).symm⟩

/-- The loop stands at some node of the chain, or behind it, and has visited the elements in
front of it. -/
def At (ps : List Ptr) (ts : List T) (s : Ptr × List T) : Prop :=
  ∃ k, s.1 = (ps.drop k).headD null ∧ s.2 = ts.take k

/-- What the loop visits ends in front of some element. -/
theorem iterate_stops (hseg : Seg (nextOf h) l.head ps null)
    (hcontent : ps.map (dataOf h) = ts.map some) {fuel : Nat} {us : List T}
    (hloop : l.iterate ne h fuel = some us) : ∃ k < ts.length, us = ts.take k := by
  obtain ⟨first, hfirst, hloop⟩ := Option.bind_eq_some_iff.mp hloop
  have hlength : ps.length = ts.length := by
    rw [← List.length_map (dataOf h), hcontent, List.length_map]
  -- a node that holds an element is one of the chain
  have hnode : ∀ {k : Nat} {t : T}, dataOf h ((ps.drop k).headD null) = some t →
      ∃ hk : k < ps.length, ps = ps.take k ++ ps[k] :: ps.drop (k + 1) ∧
        (ps.drop k).headD null = ps[k] ∧ ts[k]? = some t := by
    intro k t ht
    have hk : k < ps.length := by
      by_contra hle
      rw [List.drop_eq_nil_of_le (Nat.le_of_not_lt hle), List.headD_nil] at ht
      exact h.null_notMem_live (mem_live_of_dataOf ht)
    have hhead : (ps.drop k).headD null = ps[k] := by
      rw [← List.getElem_cons_drop hk, List.headD_cons]
    refine ⟨hk, by rw [List.getElem_cons_drop, List.take_append_drop], hhead, ?_⟩
    have hget := congrArg (·[k]?) hcontent
    simp only [List.getElem?_map, List.getElem?_eq_getElem hk, Option.map_some] at hget
    rw [hhead] at ht
    rw [ht] at hget
    obtain ⟨u, hu, he⟩ := Option.map_eq_some_iff.mp hget.symm
    rw [hu, Option.some.inj he]
  refine Fuel.loop_invariant (P := At ps ts) (Q := fun us => ∃ k < ts.length, us = ts.take k)
    ?_ ?_ ⟨0, ?_, rfl⟩ hloop
  · rintro ⟨p, vs⟩ s' ⟨k, rfl, rfl⟩ hturn
    obtain ⟨t, ht, hr⟩ := iterateTurn_some hturn
    obtain ⟨hk, hps, hhead, hts⟩ := hnode ht
    rcases hr with he | ⟨next, hnext, he⟩
    · cases he
    · cases he
      refine ⟨k + 1, ?_, ?_⟩
      · rw [hps] at hseg
        rw [hhead, (Seg.append_cons_iff.mp hseg).2.first] at hnext
        exact (Option.some.inj hnext).symm
      · rw [List.take_add_one, hts]
        rfl
  · rintro ⟨p, vs⟩ us' ⟨k, rfl, rfl⟩ hturn
    obtain ⟨t, ht, hr⟩ := iterateTurn_some hturn
    obtain ⟨hk, -⟩ := hnode ht
    rcases hr with he | ⟨next, -, he⟩
    · exact ⟨k, hlength ▸ hk, Sum.inr.inj he⟩
    · cases he
  · rw [begin', hseg.first] at hfirst
    exact (Option.some.inj hfirst).symm

theorem iterate_shorter (hseg : Seg (nextOf h) l.head ps null)
    (hcontent : ps.map (dataOf h) = ts.map some) {fuel : Nat} {us : List T}
    (hloop : l.iterate ne h fuel = some us) : us.length < ts.length := by
  obtain ⟨k, hk, rfl⟩ := iterate_stops hseg hcontent hloop
  rw [List.length_take]
  omega

/-- The loop from a node on: it visits what differs from the last element, up to the first
that does not. -/
theorem iterateLoop_run {q : Ptr} {t : T} (hend : l.end' h = some q) (hq : dataOf h q = some t)
    (hne : ne t t = false) :
    ∀ {qs : List Ptr} {p : Ptr} {ws vs : List T}, Seg (nextOf h) p qs null →
      (p :: qs).map (dataOf h) = ws.map some → ws.getLast? = some t →
      Fuel.loop (iterateTurn ne l h) ws.length (p, vs) =
        some (vs ++ ws.takeWhile (fun w => ne w t)) := by
  intro qs
  induction qs with
  | nil =>
      intro p ws vs hseg hcontent hlast
      obtain ⟨w, rfl, hw⟩ : ∃ w, ws = [w] ∧ dataOf h p = some w := by
        cases ws with
        | nil => cases hlast
        | cons w ws =>
            obtain ⟨hw, hws⟩ := List.cons.inj hcontent
            exact ⟨w, by rw [List.map_eq_nil_iff.mp hws.symm], hw⟩
      obtain rfl : w = t := Option.some.inj hlast
      rw [List.takeWhile_cons_of_neg (by rw [hne]; exact Bool.false_ne_true), List.append_nil]
      apply Fuel.loop_leave
      simp [iterateTurn, hend, differ, hq, hw, hne]
  | cons p' qs ih =>
      intro p ws vs hseg hcontent hlast
      cases ws with
      | nil => cases hlast
      | cons w ws =>
          obtain ⟨hw, hws⟩ := List.cons.inj hcontent
          have hlast' : ws.getLast? = some t := by
            cases ws with
            | nil => cases hws
            | cons w' ws => rwa [List.getLast?_cons_cons] at hlast
          rw [List.length_cons]
          cases hdiff : ne w t with
          | false =>
              rw [List.takeWhile_cons_of_neg (by rw [hdiff]; exact Bool.false_ne_true),
                List.append_nil]
              apply Fuel.loop_leave
              simp [iterateTurn, hend, differ, hq, hw, hdiff]
          | true =>
              rw [List.takeWhile_cons_of_pos (p := fun w => ne w t) hdiff,
                Fuel.loop_next (t := (p', vs ++ [w]))]
              · rw [ih hseg.2 hws hlast', List.append_assoc, List.singleton_append]
              · simp [iterateTurn, hend, differ, hq, hw, hdiff, hseg.1]

/-- A list with elements is visited up to the first that does not differ from the last. -/
theorem iterate_visits {t : T} (s : Sound h l ps ts) (hlast : ts.getLast? = some t)
    (hne : ne t t = false) :
    l.iterate ne h ts.length = some (ts.takeWhile (fun u => ne u t)) := by
  cases ps with
  | nil =>
      obtain rfl : ts = [] := List.length_eq_zero_iff.mp s.linked.length_eq.symm
      cases hlast
  | cons p qs =>
      have htail : l.tail ≠ null := by
        rw [Ne, s.linked.tail_eq_null_iff]
        exact List.cons_ne_nil _ _
      have hend : l.end' h = some l.tail := if_pos htail
      have hq : dataOf h l.tail = some t := by
        have hmap := congrArg List.getLast? s.linked.content
        rw [List.getLast?_map, List.getLast?_map, hlast] at hmap
        have hps : (p :: qs).getLast? = some l.tail := by
          rw [s.linked.last, List.getLast?_cons, List.getLastD_cons, List.getLastD_eq_getLast?]
        rw [hps] at hmap
        exact Option.some.inj hmap
      have hseg := s.linked.chain.forward
      have hfirst : l.begin' h = some p := hseg.1
      rw [iterate, hfirst, Option.bind_eq_bind, Option.bind_some]
      exact iterateLoop_run hend hq hne hseg.2 s.linked.content hlast

/-- In an empty list the first comparison follows a null pointer. -/
theorem iterate_empty (s : Sound h l [] ([] : List T)) (fuel : Nat) :
    l.iterate ne h fuel = none := by
  cases hloop : l.iterate ne h fuel with
  | none => rfl
  | some us =>
      cases iterate_shorter s.linked.chain.forward s.linked.content hloop

/-- **Iterating over a list.** Whatever a list holds, the loop does not visit its content. -/
theorem iterate_ne_content (hseg : Seg (nextOf h) l.head ps null)
    (hcontent : ps.map (dataOf h) = ts.map some) : ¬ ∃ fuel, l.iterate ne h fuel = some ts := by
  rintro ⟨fuel, hloop⟩
  exact Nat.lt_irrefl _ (iterate_shorter hseg hcontent hloop)

end Iterate

/-- Neither a list of two elements nor an empty one is visited as it is. -/
theorem iterate_ne_content_two :
    ∃ σ σ' ps, (list Nat).run (list Nat).start [.append 1, .append 2] = some (σ, [.done, .done]) ∧
      Ordered σ.1 σ.2.head σ.2.tail σ.2.size ps [1, 2] ∧
      (list Nat).run (list Nat).start [] = some (σ', []) ∧
      Ordered σ'.1 σ'.2.head σ'.2.tail σ'.2.size [] ([] : List Nat) ∧
      (¬ ∃ fuel, σ.2.iterate (· != ·) σ.1 fuel = some [1, 2]) ∧
      ¬ ∃ fuel, σ'.2.iterate (· != ·) σ'.1 fuel = some [] := by
  obtain ⟨σ, ps, hrun, r⟩ := run_rep (T := Nat) [.append 1, .append 2]
  have r' : Rep (list Nat).start.1 (list Nat).start.2 [] ([] : List Nat) := construct_rep .empty
  exact ⟨σ, _, ps, hrun, r.linked.ordered r.counted, rfl, r'.linked.ordered r'.counted,
    iterate_ne_content r.linked.chain.forward r.linked.content,
    iterate_ne_content r'.linked.chain.forward r'.linked.content⟩

/-- Of two elements the first is visited and not the second. -/
theorem iterate_misses_last :
    ∃ σ ps, (list Nat).run (list Nat).start [.append 1, .append 2] = some (σ, [.done, .done]) ∧
      Ordered σ.1 σ.2.head σ.2.tail σ.2.size ps [1, 2] ∧
      σ.2.iterate (· != ·) σ.1 2 = some [1] ∧
      ¬ ∃ fuel, σ.2.iterate (· != ·) σ.1 fuel = some [1, 2] := by
  obtain ⟨σ, ps, hrun, r⟩ := run_rep (T := Nat) [.append 1, .append 2]
  have s : Sound σ.1 σ.2 ps [1, 2] := r.sound
  have hvisits : σ.2.iterate (· != ·) σ.1 2 = some [1] := iterate_visits s rfl rfl
  refine ⟨σ, ps, hrun, s.linked.ordered s.counted, hvisits, ?_⟩
  rintro ⟨fuel, hloop⟩
  exact Nat.lt_irrefl _ (iterate_shorter s.linked.chain.forward s.linked.content hloop)

end LearnSpace.DataStructure.MList
