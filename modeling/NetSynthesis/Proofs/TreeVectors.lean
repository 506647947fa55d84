import NetSynthesis.Proofs.BreadthFirst
import NetSynthesis.Proofs.SearchedLists
import NetSynthesis.RegionMarking

/-! Tokens along a spanning tree. A tree edge adds its event to the vector of a state, so the tokens
of a region change along tree edges by the effects of the events. They do so along all arcs if the
effect is consistent, that is, zero on the vectors of all chords. -/
namespace NetSynthesis

namespace IntVector

theorem dot_comm (v w : IntVector) : dot v w = dot w v := by
  induction v generalizing w with
  | nil => simp [dot]
  | cons x v ih =>
    cases w with
    | nil => rfl
    | cons y w => simp only [dot, ih w, Int.mul_comm]

theorem add_dot (v w x : IntVector) : dot (add v w) x = dot v x + dot w x := by
  rw [dot_comm, dot_add, dot_comm x, dot_comm x]

theorem scale_dot (k : Int) (v x : IntVector) : dot (scale k v) x = k * dot v x := by
  rw [dot_comm, dot_scale, dot_comm]

theorem dot_of_zeros (v w : IntVector) (zeros : ∀ x ∈ w, x = 0) : dot v w = 0 := by
  induction v generalizing w with
  | nil => rfl
  | cons x v ih =>
    cases w with
    | nil => rfl
    | cons y w =>
      rw [dot, zeros y (by simp), ih w fun z member => zeros z (by simp [member])]
      simp

@[simp] theorem length_add (v w : IntVector) : (add v w).length = max v.length w.length := by
  induction v generalizing w with
  | nil => simp [add]
  | cons x v ih => cases w <;> simp [add, ih]

@[simp] theorem length_scale (k : Int) (v : IntVector) : (scale k v).length = v.length := by
  simp [scale]

@[simp] theorem length_sub (v w : IntVector) : (sub v w).length = max v.length w.length := by
  simp [sub]

theorem sub_self (v : IntVector) : sub v v = zero v.length := by
  induction v with
  | nil => rfl
  | cons x v ih =>
    rw [sub, scale] at ih
    rw [sub, scale, List.map_cons, add, ih]
    simp [zero, List.replicate_succ]

theorem getD_add (v w : IntVector) (k : Nat) :
    (add v w)[k]?.getD 0 = v[k]?.getD 0 + w[k]?.getD 0 := by
  induction v generalizing w k with
  | nil => cases w <;> simp [add]
  | cons x v ih =>
    cases w with
    | nil => simp [add]
    | cons y w => cases k <;> simp [add, ih]

theorem getD_scale (c : Int) (v : IntVector) (k : Nat) :
    (scale c v)[k]?.getD 0 = c * v[k]?.getD 0 := by
  rw [scale, List.getElem?_map]
  cases v[k]? <;> simp

theorem eq_of_getD {v w : IntVector} (length : v.length = w.length)
    (same : ∀ k : Nat, v[k]?.getD 0 = w[k]?.getD 0) : v = w := by
  refine List.ext_getElem length fun k inside inside' => ?_
  simpa [inside, inside'] using same k

theorem map_range_getD {α : Type} {v : IntVector} {n : Nat} (length : v.length = n) (g : Int → α) :
    ((List.range n).map fun i => g (v[i]?.getD 0)) = v.map g := by
  refine List.ext_getElem (by simp [length]) fun i _ right => ?_
  have inside : i < v.length := by simpa using right
  rw [List.getElem_map, List.getElem_map, List.getElem_range, List.getElem?_eq_getElem inside,
    Option.getD_some]

theorem add_map {α : Type} (xs : List α) (g h : α → Int) :
    add (xs.map g) (xs.map h) = xs.map fun x => g x + h x := by
  induction xs with
  | nil => rfl
  | cons x xs ih => simp [add, ih]

variable {events : List Event}

@[simp] theorem length_single (e : Event) : (single events e).length = events.length := by
  simp [single]

@[simp] theorem length_count (arcs : List Arc) : (count events arcs).length = events.length := by
  simp [count]

theorem dot_single (nodup : events.Nodup) (v : IntVector) (e : Event) :
    dot v (single events e) = ((events.findIdx? (· == e)).map fun i => v[i]?.getD 0).getD 0 := by
  induction events generalizing v with
  | nil => simp [single]
  | cons x events ih =>
    obtain ⟨fresh, nodup⟩ := List.nodup_cons.1 nodup
    cases v with
    | nil => cases (x :: events).findIdx? (· == e) <;> simp [dot]
    | cons y v =>
      rw [List.findIdx?_cons]
      by_cases same : x = e
      · subst same
        have rest : dot v (single events x) = 0 := by
          apply dot_of_zeros _ _
          intro z member
          obtain ⟨other, inside, rfl⟩ := List.mem_map.1 member
          refine if_neg fun (eq : other = x) => fresh (eq ▸ inside)
        change y * (if x = x then 1 else 0) + dot v (single events x) = _
        simp [rest]
      · have tail := ih nodup v
        change y * (if x = e then 1 else 0) + dot v (single events e) = _
        rw [tail]
        cases events.findIdx? (· == e) <;> simp [same]

theorem count_append (arcs : List Arc) (a : Arc) :
    count events (arcs ++ [a]) = add (count events arcs) (single events a.label) := by
  rw [count, count, single, add_map]
  apply List.map_congr_left
  intro e _
  by_cases same : a.label = e
  · simp [same, List.countP_append]
  · simp [same, Ne.symm same, List.countP_append]

theorem dot_count_nil (v : IntVector) : dot v (count events []) = 0 := by
  apply dot_of_zeros _ _
  intro x member
  obtain ⟨e, _, rfl⟩ := List.mem_map.1 member
  rfl

end IntVector

namespace Frame

open IntVector

variable {f : Frame} {root : State}

/-- The tree of the frame starts at the given state of a system whose copies of arcs agree. -/
structure Rooted (f : Frame) (root : State) : Prop where
  wellFormed : f.graph.WellFormed
  start : f.tree.start = some root

/-- An effect that is zero on every chord with the tree paths to its ends. -/
def Consistent (f : Frame) (v : IntVector) : Prop := ∀ a ∈ f.tree.chords, v.dot (f.edgeVector a) = 0

theorem lookup_table (s : State) : f.table.lookup s =
    if s ∈ f.tree.reachable then some (count f.graph.alphabet (f.tree.pathEdges s)) else none := by
  rw [f.table_eq, parikhTable, lookup_map_pair, Frame.graph]

theorem reachable_eq : f.reachable = f.tree.reachable := by
  rw [reachable, f.table_eq, parikhTable, List.map_map]
  simp [Function.comp_def]

theorem mem_reachable {s : State} : s ∈ f.reachable ↔ f.isReachable s = true := by
  rw [isReachable, lookup_table, reachable_eq]
  split <;> simp_all

theorem mem_table {p : State × IntVector} :
    p ∈ f.table ↔ f.isReachable p.1 = true ∧ p.2 = f.vector p.1 := by
  rw [← mem_reachable, reachable_eq, vector, lookup_table, f.table_eq, parikhTable]
  simp only [List.mem_map, Frame.graph]
  constructor
  · rintro ⟨s, member, rfl⟩
    simp [member]
  · rintro ⟨member, same⟩
    exact ⟨p.1, member, Prod.ext rfl (by simp_all)⟩

theorem nodup_reachable (wf : f.graph.WellFormed) : f.reachable.Nodup := by
  rw [reachable_eq]; exact wf.states_nodup.filter _

theorem vector_eq {s : State} (found : f.isReachable s = true) :
    f.vector s = count f.graph.alphabet (f.tree.pathEdges s) := by
  rw [← mem_reachable, reachable_eq] at found
  rw [vector, lookup_table, if_pos found, Option.getD_some]

theorem length_vector {s : State} (found : f.isReachable s = true) :
    (f.vector s).length = f.size := by
  rw [vector_eq found, length_count]

theorem length_edgeVector {a : Arc} (source : f.isReachable a.source = true)
    (target : f.isReachable a.target = true) : (f.edgeVector a).length = f.size := by
  simp [edgeVector, length_vector source, length_vector target, events]

theorem edges_eq (s : State) : f.tree.direction.edges f.tree.graph s = f.graph.outgoing s := by
  rw [f.forward]; rfl

/-! ### Events -/

theorem exists_event {i : Nat} (inside : i < f.size) : ∃ e, f.events[i]? = some e :=
  ⟨_, List.getElem?_eq_getElem inside⟩

section Events

variable (wf : f.graph.WellFormed) {r : Region f.size} {e : Event} {i : Nat}

include wf

theorem eventIndex?_eq_some : f.eventIndex? e = some i ↔ f.events[i]? = some e := by
  have nodup : f.events.Nodup := wf.alphabet_nodup
  rw [eventIndex?, List.findIdx?_eq_some_iff_getElem]
  constructor
  · rintro ⟨bound, same, _⟩
    rw [List.getElem?_eq_getElem bound, eq_of_beq same]
  · intro found
    obtain ⟨bound, same⟩ := List.getElem?_eq_some_iff.1 found
    refine ⟨bound, beq_iff_eq.2 same, fun j before => ?_⟩
    rw [Bool.not_eq_true, beq_eq_false_iff_ne, ← same]
    exact fun eq => before.ne ((List.Nodup.getElem_inj_iff nodup).1 eq)

theorem eventIndex?_of_mem (known : e ∈ f.events) :
    ∃ i, f.eventIndex? e = some i ∧ i < f.size := by
  obtain ⟨i, found⟩ := List.mem_iff_getElem?.1 known
  exact ⟨i, (eventIndex?_eq_some wf).2 found, (List.getElem?_eq_some_iff.1 found).1⟩

theorem weightOf_eq (at_i : f.events[i]? = some e) : f.weightOf r e = r.weightAt i := by
  rw [weightOf, (eventIndex?_eq_some wf).2 at_i, Option.map_some, Option.getD_some]

theorem mem_zip_weights {w : Weight} :
    (e, w) ∈ f.events.zip r.weights ↔ e ∈ f.events ∧ f.weightOf r e = w := by
  constructor
  · intro member
    obtain ⟨i, at_i⟩ := List.mem_iff_getElem?.1 member
    obtain ⟨event, weight⟩ := List.getElem?_zip_eq_some.1 at_i
    refine ⟨List.mem_of_getElem? event, ?_⟩
    rw [weightOf_eq wf event, Region.weightAt, weight, Option.getD_some]
  · rintro ⟨known, rfl⟩
    obtain ⟨i, index, bound⟩ := eventIndex?_of_mem wf known
    have event := (eventIndex?_eq_some wf).1 index
    have entry : r.weights[i]? = some (f.weightOf r e) := by
      rw [weightOf_eq wf event, Region.weightAt, List.getElem?_eq_getElem (by rwa [r.length_eq]),
        Option.getD_some]
    exact List.mem_iff_getElem?.2 ⟨i, List.getElem?_zip_eq_some.2 ⟨event, entry⟩⟩

end Events

namespace Rooted

variable (rooted : f.Rooted root)

include rooted

theorem isReachable_iff {s : State} : f.isReachable s = true ↔ f.tree.isReachable s = true := by
  rw [← mem_reachable, reachable_eq, SpanningTree.reachable, List.mem_filter]
  exact and_iff_right_of_imp
    (SpanningTree.mem_states_of_isReachable rooted.wellFormed rooted.start)

theorem isReachable_root : f.isReachable root = true :=
  rooted.isReachable_iff.2 (SpanningTree.isReachable_root rooted.wellFormed rooted.start)

theorem mem_states {s : State} (found : f.isReachable s = true) : s ∈ f.graph.states :=
  SpanningTree.mem_states_of_isReachable rooted.wellFormed rooted.start
    (rooted.isReachable_iff.1 found)

theorem arc_cases {s : State} (found : f.isReachable s = true) {a : Arc}
    (edge : a ∈ f.graph.outgoing s) : f.isReachable a.target = true ∧
      (f.tree.predecessorEdge? a.target = some a ∨ a ∈ f.tree.chords) := by
  have cases := SpanningTree.edge_cases rooted.wellFormed rooted.start
    (rooted.isReachable_iff.1 found) (by rw [edges_eq]; exact edge)
  rw [f.forward] at cases
  exact cases.imp rooted.isReachable_iff.2 id

theorem isReachable_target {a : Arc} (source : f.isReachable a.source = true)
    (arc : a ∈ f.graph.arcs) : f.isReachable a.target = true :=
  (rooted.arc_cases source (rooted.wellFormed.mem_outgoing.2 ⟨arc, rfl⟩)).1

theorem chord_spec {a : Arc} (chord : a ∈ f.tree.chords) : a ∈ f.graph.arcs ∧
    f.isReachable a.source = true ∧ f.isReachable a.target = true := by
  have spec := SpanningTree.chord_spec rooted.wellFormed rooted.start chord
  rw [edges_eq, f.forward] at spec
  exact ⟨(rooted.wellFormed.mem_outgoing.1 spec.1).1, rooted.isReachable_iff.2 spec.2.1,
    rooted.isReachable_iff.2 spec.2.2⟩

/-- What holds at the root and is passed on by tree edges holds at all reachable states. -/
theorem induction {P : State → Prop} (base : P root)
    (step : ∀ a ∈ f.graph.arcs, f.isReachable a.source = true →
      f.tree.predecessorEdge? a.target = some a → P a.source → P a.target)
    {s : State} (found : f.isReachable s = true) : P s := by
  refine SpanningTree.tree_induction rooted.wellFormed rooted.start base ?_
    (rooted.isReachable_iff.1 found)
  rw [f.forward]
  intro a source edge tree
  exact step a (rooted.wellFormed.mem_outgoing.1 edge).1 (rooted.isReachable_iff.2 source) tree

theorem isReachable_iff_reaches {s : State} :
    f.isReachable s = true ↔ (f.graph.behaviour root).Reaches s :=
  rooted.isReachable_iff.trans
    (SpanningTree.isReachable_iff_reaches rooted.wellFormed rooted.start f.forward)

/-! ### Events -/

theorem eventIndex?_eq_some {e : Event} {i : Nat} :
    f.eventIndex? e = some i ↔ f.events[i]? = some e :=
  Frame.eventIndex?_eq_some rooted.wellFormed

theorem eventIndex?_lt {e : Event} {i : Nat} (index : f.eventIndex? e = some i) : i < f.size :=
  (List.getElem?_eq_some_iff.1 (rooted.eventIndex?_eq_some.1 index)).1

theorem eventIndex?_of_mem {e : Event} (known : e ∈ f.events) :
    ∃ i, f.eventIndex? e = some i ∧ i < f.size :=
  Frame.eventIndex?_of_mem rooted.wellFormed known

theorem eventIndex?_of_arc {a : Arc} (arc : a ∈ f.graph.arcs) :
    ∃ i, f.eventIndex? a.label = some i ∧ i < f.size :=
  rooted.eventIndex?_of_mem (rooted.wellFormed.labels_mem a arc)

theorem dot_single (r : Region f.size) (e : Event) :
    r.effect.dot (single f.graph.alphabet e) = (f.weightOf r e).effect := by
  rw [IntVector.dot_single rooted.wellFormed.alphabet_nodup, weightOf, eventIndex?, events]
  cases f.graph.alphabet.findIdx? (· == e) with
  | none => rfl
  | some i =>
    simp only [Region.effect, Region.weightAt, Option.map_some, Option.getD_some, List.getElem?_map]
    cases r.weights[i]? <;> rfl

/-! ### Tokens -/

theorem tokens_root (r : Region f.size) : f.tokens r root = r.initial := by
  rw [tokens, Region.tokensAfter, vector_eq rooted.isReachable_root,
    SpanningTree.pathEdges_root rooted.wellFormed rooted.start, dot_count_nil, Int.add_zero]

theorem vector_tree {a : Arc} (source : f.isReachable a.source = true) (arc : a ∈ f.graph.arcs)
    (tree : f.tree.predecessorEdge? a.target = some a) :
    f.vector a.target = add (f.vector a.source) (single f.graph.alphabet a.label) := by
  have path := SpanningTree.pathEdges_step rooted.wellFormed rooted.start tree
  rw [f.forward] at path
  rw [vector_eq (rooted.isReachable_target source arc), vector_eq source, path]
  exact count_append _ a

theorem tokens_tree (r : Region f.size) {a : Arc} (source : f.isReachable a.source = true)
    (arc : a ∈ f.graph.arcs) (tree : f.tree.predecessorEdge? a.target = some a) :
    f.tokens r a.target = f.tokens r a.source + (f.weightOf r a.label).effect := by
  rw [tokens, tokens, Region.tokensAfter, Region.tokensAfter, rooted.vector_tree source arc tree,
    dot_add, rooted.dot_single, Int.add_assoc]

/-- A chord's vector compares the tokens at its target with those that its event should leave. -/
theorem dot_edgeVector (r : Region f.size) (a : Arc) : r.effect.dot (f.edgeVector a) =
    f.tokens r a.source + (f.weightOf r a.label).effect - f.tokens r a.target := by
  rw [edgeVector, dot_sub, dot_add, events, rooted.dot_single, tokens, tokens, Region.tokensAfter,
    Region.tokensAfter]
  omega

/-- With a consistent effect every arc changes the tokens by the effect of its event. -/
theorem tokens_step {r : Region f.size} (consistent : f.Consistent r.effect) {a : Arc}
    (source : f.isReachable a.source = true) (arc : a ∈ f.graph.arcs) :
    f.tokens r a.target = f.tokens r a.source + (f.weightOf r a.label).effect := by
  have edge := rooted.wellFormed.mem_outgoing.2 ⟨arc, rfl⟩
  rcases (rooted.arc_cases source edge).2 with tree | chord
  · exact rooted.tokens_tree r source arc tree
  · have zero := consistent a chord
    rw [rooted.dot_edgeVector] at zero
    omega

theorem consistent_of_step {r : Region f.size} (step : ∀ a ∈ f.graph.arcs,
    f.isReachable a.source = true →
      f.tokens r a.target = f.tokens r a.source + (f.weightOf r a.label).effect) :
    f.Consistent r.effect := by
  intro a chord
  obtain ⟨arc, source, _⟩ := rooted.chord_spec chord
  rw [rooted.dot_edgeVector, step a arc source]
  omega

end Rooted

/-- Also if the search starts nowhere, the reachable states are those that it finds. -/
theorem isReachable_iff_tree (wf : f.graph.WellFormed) {s : State} :
    f.isReachable s = true ↔ f.tree.isReachable s = true := by
  refine ⟨fun found => ?_, fun found => ?_⟩
  · rw [← mem_reachable, reachable_eq, SpanningTree.reachable, List.mem_filter] at found
    exact found.2
  · obtain ⟨root, start⟩ := SpanningTree.exists_start found
    exact Rooted.isReachable_iff ⟨wf, start⟩ |>.2 found

theorem exists_rooted (wf : f.graph.WellFormed) {s : State}
    (found : f.isReachable s = true) : ∃ root, f.Rooted root := by
  obtain ⟨root, start⟩ := SpanningTree.exists_start ((isReachable_iff_tree wf).1 found)
  exact ⟨root, wf, start⟩

end Frame

end NetSynthesis
