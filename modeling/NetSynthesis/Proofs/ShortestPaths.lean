import Mathlib.Data.List.Induction
import NetSynthesis.Proofs.BreadthFirst
import NetSynthesis.Proofs.SimplePaths

/-! Spanning trees are breadth-first. States are found in the order of their parents, so that a
state found later is not nearer to the start, and no path is shorter than the one in the tree. Each
round of a search meets the arcs at one state, all of them and no others, so that every arc at a
state found is a tree edge or a chord and none is both. -/
namespace NetSynthesis

/-! ### Paths of arcs -/

/-- Arcs of the system, each from the state that the one before it leads to. -/
inductive TransitionSystem.Route (ts : TransitionSystem) : State → ArcPath → State → Prop
  | nil {s : State} : Route ts s [] s
  | cons {a : Arc} {p : ArcPath} {s : State} :
      a ∈ ts.arcs → Route ts a.target p s → Route ts a.source (a :: p) s

namespace TransitionSystem

variable {ts : TransitionSystem} {r s : State} {p : ArcPath} {a : Arc}

theorem route_nil : ts.Route r [] s ↔ r = s :=
  ⟨fun | .nil => rfl, fun same => same ▸ .nil⟩

theorem route_cons :
    ts.Route r (a :: p) s ↔ a ∈ ts.arcs ∧ a.source = r ∧ ts.Route a.target p s := by
  constructor
  · rintro (_ | ⟨arc, rest⟩)
    exact ⟨arc, rfl, rest⟩
  · rintro ⟨arc, rfl, rest⟩
    exact .cons arc rest

theorem route_snoc : ts.Route r (p ++ [a]) s ↔
    ts.Route r p a.source ∧ a ∈ ts.arcs ∧ a.target = s := by
  induction p generalizing r with
  | nil => simp only [List.nil_append, route_cons, route_nil]; tauto
  | cons b p ih => simp only [List.cons_append, route_cons, ih]; tauto

end TransitionSystem

namespace Direction

variable {ts : TransitionSystem} {d : Direction} {root s : State} {p : ArcPath} {a : Arc}

/-- The arcs lead from the root to a state or, backward, from the state to the root. They are listed
from the root on. -/
def Leads (d : Direction) (ts : TransitionSystem) (root : State) (p : ArcPath) (s : State) : Prop :=
  match d with
  | forward => ts.Route root p s
  | backward => ts.Route s p.reverse root

theorem nodup_edges (wf : ts.WellFormed) (s : State) : (d.edges ts s).Nodup := by
  cases d with
  | forward =>
    rw [edges, wf.outgoing_filter]
    exact wf.arcs_nodup.filter _
  | backward =>
    rw [edges, wf.incoming_filter]
    exact wf.arcs_nodup.filter _

theorem leads_nil : d.Leads ts root [] s ↔ root = s := by
  cases d with
  | forward => exact TransitionSystem.route_nil
  | backward => exact TransitionSystem.route_nil.trans eq_comm

theorem leads_snoc : d.Leads ts root (p ++ [a]) s ↔
    d.Leads ts root p (d.near a) ∧ a ∈ ts.arcs ∧ d.far a = s := by
  cases d with
  | forward => exact TransitionSystem.route_snoc
  | backward =>
    simp only [Leads, List.reverse_append, List.reverse_cons, List.reverse_nil, List.nil_append,
      List.cons_append, TransitionSystem.route_cons, near, far]
    tauto

end Direction

/-! ### The arcs that a search has met -/

namespace Sweep

variable {ts : TransitionSystem} {d : Direction} {root : State} {w : Sweep}

/-- The arcs that have been met, tree edges before chords. -/
def arcs (w : Sweep) : List Arc := w.discovered.filterMap (·.2) ++ w.chords

theorem arcs_follow (d : Direction) (w : Sweep) (a : Arc) :
    (w.follow d a).arcs.Perm (w.arcs ++ [a]) := by
  rw [follow]
  split
  · simp [arcs]
  · simp only [arcs, List.filterMap_append, List.filterMap_cons, List.filterMap_nil,
      List.append_assoc]
    exact List.perm_append_comm.append_left _

theorem arcs_follow_all (d : Direction) (w : Sweep) (arcs : List Arc) :
    (arcs.foldl (follow d) w).arcs.Perm (w.arcs ++ arcs) := by
  induction arcs generalizing w with
  | nil => simp
  | cons a arcs ih =>
    refine (ih (w.follow d a)).trans ?_
    simpa using (arcs_follow d w a).append_right arcs

theorem arcs_round (ts : TransitionSystem) (d : Direction) (w : Sweep) (k : Nat) :
    (w.round ts d k).arcs.Perm (w.arcs ++ w.names[k]?.toList.flatMap (d.edges ts)) := by
  rw [round, names, List.getElem?_map]
  cases w.discovered[k]? with
  | none => simp
  | some p => simpa using arcs_follow_all d w (d.edges ts p.1)

theorem rounds_grow (wf : ts.WellFormed) {k n : Nat} (later : k ≤ n) :
    Grows (rounds ts d root k) (rounds ts d root n) := by
  induction n, later using Nat.le_induction with
  | base => exact .refl _
  | succ n _ ih =>
    rw [rounds_succ]
    exact ih.trans ((rounds_met wf n).1.round wf n).2.1

theorem names_rounds (wf : ts.WellFormed) {k n : Nat} (later : k ≤ n) :
    (rounds ts d root n).names[k]? = (rounds ts d root k).names[k]? := by
  cases found : (rounds ts d root k).names[k]? with
  | none =>
    have idle : (rounds ts d root k).discovered[k]? = none := by simpa [names] using found
    rw [rounds_idle idle later, found]
  | some s => exact getElem?_of_prefix (rounds_grow wf later).names found

theorem take_rounds (wf : ts.WellFormed) (n : Nat) :
    (rounds ts d root (n + 1)).names.take (n + 1) =
      (rounds ts d root n).names.take n ++ (rounds ts d root n).names[n]?.toList := by
  rw [← List.take_add_one]
  cases idle : (rounds ts d root n).discovered[n]? with
  | none => rw [rounds_idle idle (Nat.le_add_right n 1)]
  | some p =>
    have inside : n + 1 ≤ (rounds ts d root n).names.length := by
      simpa [names] using (List.getElem?_eq_some_iff.1 idle).1
    obtain ⟨more, split⟩ := (rounds_grow (d := d) wf (Nat.le_add_right n 1)).names
    rw [← split, List.take_append_of_le_length inside]

theorem arcs_rounds (wf : ts.WellFormed) (n : Nat) : (rounds ts d root n).arcs.Perm
    (((rounds ts d root n).names.take n).flatMap (d.edges ts)) := by
  induction n with
  | zero => simp [rounds, arcs]
  | succ n ih =>
    rw [take_rounds wf, List.flatMap_append, rounds_succ]
    exact (arcs_round ts d _ n).trans (ih.append_right _)

/-- What is found in the first `n` rounds is found by an arc at one of the first `n` states. -/
theorem origin_rounds (wf : ts.WellFormed) {n : Nat} {s : State} {b : Arc}
    (entry : (s, some b) ∈ (rounds ts d root n).discovered) :
    ∃ l < n, (rounds ts d root n).names[l]? = some (d.near b) := by
  have member : b ∈ (rounds ts d root n).arcs :=
    List.mem_append_left _ (List.mem_filterMap.2 ⟨_, entry, rfl⟩)
  obtain ⟨r, early, edge⟩ := List.mem_flatMap.1 ((arcs_rounds wf n).mem_iff.1 member)
  obtain ⟨l, at_l⟩ := List.mem_iff_getElem?.1 early
  have bound : l < n := by
    have := (List.getElem?_eq_some_iff.1 at_l).1
    rw [List.length_take] at this
    omega
  rw [List.getElem?_take_of_lt bound, ← ((Direction.mem_edges wf).1 edge).2] at at_l
  exact ⟨l, bound, at_l⟩

theorem far_mem_rounds (wf : ts.WellFormed) {k : Nat} {a : Arc}
    (near : (rounds ts d root k).names[k]? = some (d.near a)) (arc : a ∈ ts.arcs) :
    d.far a ∈ (rounds ts d root (k + 1)).names := by
  obtain ⟨sound, met⟩ : Sound ts d root (rounds ts d root (k + 1)) ∧ _ := rounds_met wf (k + 1)
  rw [← names_rounds wf (Nat.le_add_right k 1), names, List.getElem?_map,
    Option.map_eq_some_iff] at near
  obtain ⟨⟨_, x⟩, at_k, rfl⟩ := near
  rcases met k (Nat.lt_add_one k) _ x at_k a ((Direction.mem_edges wf).2 ⟨arc, rfl⟩) with
    tree | chord
  · exact List.mem_map_of_mem tree
  · exact (sound.chord a chord).2.2

end Sweep

namespace SpanningTree

variable {t : SpanningTree} {root : State}

theorem sweep_eq_rounds (start : t.start = some root) :
    t.sweep = Sweep.rounds t.graph t.direction root t.graph.states.length := by
  rw [t.sweep_eq, start]
  rfl

section

variable (wf : t.graph.WellFormed) (start : t.start = some root)

include wf start

theorem arcs_sweep : t.sweep.arcs.Perm (t.sweep.names.flatMap (t.direction.edges t.graph)) := by
  have short := (sweep_sound wf start).1.length_le wf (t.start_mem root start)
  have all := sweep_eq_rounds start
  rw [all] at short ⊢
  refine (Sweep.arcs_rounds wf t.graph.states.length).trans ?_
  rw [List.take_of_length_le (by simpa [Sweep.names] using short)]

theorem nodup_arcs : (t.treeEdges ++ t.chords).Nodup := by
  refine (arcs_sweep wf start).nodup_iff.2
    (List.nodup_flatMap.2 ⟨fun s _ => Direction.nodup_edges wf s, ?_⟩)
  refine (sweep_sound wf start).1.nodup.imp fun differ a first second => differ ?_
  rw [← ((Direction.mem_edges wf).1 first).2, ((Direction.mem_edges wf).1 second).2]

theorem mem_arcs {a : Arc} : a ∈ t.treeEdges ++ t.chords ↔
    a ∈ t.graph.arcs ∧ t.isReachable (t.direction.near a) = true := by
  refine (arcs_sweep wf start).mem_iff.trans (List.mem_flatMap.trans ?_)
  constructor
  · rintro ⟨s, found, edge⟩
    obtain ⟨arc, rfl⟩ := (Direction.mem_edges wf).1 edge
    exact ⟨arc, Sweep.knows_iff.2 found⟩
  · rintro ⟨arc, found⟩
    exact ⟨_, Sweep.knows_iff.1 found, (Direction.mem_edges wf).2 ⟨arc, rfl⟩⟩

/-! ### The order of finding -/

/-- If an arc leads from the `k`-th state to the `j`-th one, the states up to the `j`-th have been
found from states up to the `k`-th. -/
theorem parent_le {s : State} {a : Arc} {i j k : Nat} (at_i : t.sweep.names[i]? = some s)
    (before : i ≤ j) (near : t.sweep.names[k]? = some (t.direction.near a))
    (arc : a ∈ t.graph.arcs) (far : t.sweep.names[j]? = some (t.direction.far a)) : s = root ∨
    ∃ b, t.predecessorEdge? s = some b ∧
      ∃ l ≤ k, t.sweep.names[l]? = some (t.direction.near b) := by
  rcases position_cases wf start at_i with top | ⟨b, tree, _⟩
  · exact .inl top
  have sound := (sweep_sound wf start).1
  have inside : k < t.graph.states.length := by
    have := (List.getElem?_eq_some_iff.1 near).1
    have := sound.length_le wf (t.start_mem root start)
    simp only [Sweep.names, List.length_map] at *
    omega
  let w := Sweep.rounds t.graph t.direction root (k + 1)
  have grows : Sweep.Grows w t.sweep := by
    rw [sweep_eq_rounds start]
    exact Sweep.rounds_grow wf inside
  have far_mem : t.direction.far a ∈ w.names := by
    rw [sweep_eq_rounds start, Sweep.names_rounds wf inside.le] at near
    exact Sweep.far_mem_rounds wf near arc
  have found : s ∈ w.names :=
    mem_of_prefix_of_le grows.names sound.nodup at_i before far far_mem
  have entry : (s, some b) ∈ w.discovered := by
    obtain ⟨⟨_, x⟩, member, rfl⟩ := List.mem_map.1 found
    have listed := (predecessorEdge?_eq_some wf start).1 tree
    rwa [List.inj_on_of_nodup_map sound.nodup listed (grows.discovered.subset member) rfl]
  obtain ⟨l, early, above⟩ := Sweep.origin_rounds wf entry
  exact .inr ⟨b, tree, l, Nat.lt_succ_iff.1 early, getElem?_of_prefix grows.names above⟩

/-- A state that is found later is not nearer to the start. -/
theorem length_pathEdges_mono {r s : State} {i j : Nat} (at_i : t.sweep.names[i]? = some r)
    (before : i ≤ j) (at_j : t.sweep.names[j]? = some s) :
    (t.pathEdges r).length ≤ (t.pathEdges s).length := by
  induction j using Nat.strong_induction_on generalizing i r s with
  | _ j ih =>
    rcases position_cases wf start at_j with rfl | ⟨a, tree, rfl, edge, k, earlier, near⟩
    · have sound := (sweep_sound wf start).1
      have head : t.sweep.names[0]? = some s := by
        rw [Sweep.names, List.getElem?_map, sound.head]
        rfl
      have first : j = 0 := (List.getElem?_inj (List.getElem?_eq_some_iff.1 at_j).1
        sound.nodup).1 (at_j.trans head.symm)
      obtain rfl : i = 0 := by omega
      rw [Option.some.inj (at_i.symm.trans head)]
    · have arc := ((Direction.mem_edges wf).1 edge).1
      rcases parent_le wf start at_i before near arc at_j with
        rfl | ⟨b, parent, l, above, origin⟩
      · rw [pathEdges_root wf start]
        exact Nat.zero_le _
      · rw [pathEdges_step wf start tree, pathEdges_step wf start parent, List.length_append,
          List.length_append]
        exact Nat.add_le_add_right (ih k earlier origin above near) 1

theorem length_pathEdges_far {a : Arc} (found : t.isReachable (t.direction.near a) = true)
    (arc : a ∈ t.graph.arcs) : t.isReachable (t.direction.far a) = true ∧
      (t.pathEdges (t.direction.far a)).length ≤
        (t.pathEdges (t.direction.near a)).length + 1 := by
  have reached := (edge_cases wf start found ((Direction.mem_edges wf).2 ⟨arc, rfl⟩)).1
  refine ⟨reached, ?_⟩
  obtain ⟨k, near⟩ := List.mem_iff_getElem?.1 (Sweep.knows_iff.1 found)
  obtain ⟨j, far⟩ := List.mem_iff_getElem?.1 (Sweep.knows_iff.1 reached)
  rcases parent_le wf start far le_rfl near arc far with top | ⟨b, parent, l, above, origin⟩
  · rw [top, pathEdges_root wf start]
    exact Nat.zero_le _
  · rw [pathEdges_step wf start parent, List.length_append]
    exact Nat.add_le_add_right (length_pathEdges_mono wf start origin above near) 1

/-- Every path leads to a state found, and is not shorter than the path in the tree. -/
theorem length_pathEdges_le {q : ArcPath} {s : State}
    (leads : t.direction.Leads t.graph root q s) :
    t.isReachable s = true ∧ (t.pathEdges s).length ≤ q.length := by
  induction q using List.reverseRecOn generalizing s with
  | nil =>
    obtain rfl := Direction.leads_nil.1 leads
    rw [pathEdges_root wf start]
    exact ⟨isReachable_root wf start, Nat.zero_le _⟩
  | append_singleton q a ih =>
    obtain ⟨before, arc, rfl⟩ := Direction.leads_snoc.1 leads
    obtain ⟨found, short⟩ := ih before
    obtain ⟨reached, step⟩ := length_pathEdges_far wf start found arc
    rw [List.length_append]
    exact ⟨reached, step.trans (Nat.add_le_add_right short 1)⟩

theorem leads_pathEdges {s : State} (found : t.isReachable s = true) :
    t.direction.Leads t.graph root (t.pathEdges s) s ∧ ∀ a ∈ t.pathEdges s, a ∈ t.treeEdges := by
  refine tree_induction (P := fun s => t.direction.Leads t.graph root (t.pathEdges s) s ∧
    ∀ a ∈ t.pathEdges s, a ∈ t.treeEdges) wf start ?_ (fun a _ edge tree before => ?_) found
  · rw [pathEdges_root wf start]
    exact ⟨Direction.leads_nil.2 rfl, by simp⟩
  · rw [pathEdges_step wf start tree]
    refine ⟨Direction.leads_snoc.2 ⟨before.1, ((Direction.mem_edges wf).1 edge).1, rfl⟩, ?_⟩
    intro b member
    rcases List.mem_append.1 member with old | last
    · exact before.2 b old
    · obtain rfl := List.mem_singleton.1 last
      exact (mem_treeEdges wf start).2 tree

theorem isReachable_iff_leads {s : State} :
    t.isReachable s = true ↔ ∃ p, t.direction.Leads t.graph root p s :=
  ⟨fun found => ⟨_, (leads_pathEdges wf start found).1⟩,
    fun ⟨_, leads⟩ => (length_pathEdges_le wf start leads).1⟩

theorem existsUnique_treeEdge {s : State} (found : t.isReachable s = true) (other : s ≠ root) :
    ∃! a, a ∈ t.treeEdges ∧ t.direction.far a = s := by
  obtain ⟨i, at_i⟩ := List.mem_iff_getElem?.1 (Sweep.knows_iff.1 found)
  rcases position_cases wf start at_i with top | ⟨a, tree, rfl, _⟩
  · exact absurd top other
  · refine ⟨a, ⟨(mem_treeEdges wf start).2 tree, rfl⟩, ?_⟩
    rintro b ⟨member, same⟩
    have edge := (mem_treeEdges wf start).1 member
    rw [same, tree] at edge
    exact (Option.some.inj edge).symm

theorem far_ne_root {a : Arc} (member : a ∈ t.treeEdges) : t.direction.far a ≠ root := by
  intro top
  have tree := (mem_treeEdges wf start).1 member
  rw [top, predecessorEdge?_root wf start] at tree
  exact absurd tree (by simp)

end

/-- The tree holds the states that the root leads to or, backward, that lead to the root, each by a
path of as few arcs as possible. The arcs at these states are its tree edges and its chords, each
of them once. -/
structure BreadthFirst (ts : TransitionSystem) (d : Direction) (root : State)
    (t : SpanningTree) : Prop where
  isReachable_iff : ∀ s, t.isReachable s = true ↔ ∃ p, d.Leads ts root p s
  shortest_path : ∀ s, t.isReachable s = true → ∃ p, d.Leads ts root p s ∧
    (∀ a ∈ p, a ∈ t.treeEdges) ∧ t.pathFromStart s = p.map d.near ++ [s] ∧
    ∀ q, d.Leads ts root q s → p.length ≤ q.length
  arcs_nodup : (t.treeEdges ++ t.chords).Nodup
  mem_arcs_iff : ∀ a, a ∈ t.treeEdges ++ t.chords ↔
    a ∈ ts.arcs ∧ t.isReachable (d.near a) = true
  treeEdge : ∀ s, t.isReachable s = true → s ≠ root → ∃! a, a ∈ t.treeEdges ∧ d.far a = s
  root_treeless : ∀ a ∈ t.treeEdges, d.far a ≠ root
  unreachable_sublist : t.unreachable.Sublist ts.states
  mem_unreachable_iff : ∀ s, s ∈ t.unreachable ↔ s ∈ ts.states ∧ ¬ ∃ p, d.Leads ts root p s

theorem breadthFirst (wf : t.graph.WellFormed) (start : t.start = some root) :
    t.BreadthFirst t.graph t.direction root where
  isReachable_iff _ := isReachable_iff_leads wf start
  shortest_path s found := by
    obtain ⟨leads, tree⟩ := leads_pathEdges wf start found
    exact ⟨t.pathEdges s, leads, tree, if_pos found,
      fun q other => (length_pathEdges_le wf start other).2⟩
  arcs_nodup := nodup_arcs wf start
  mem_arcs_iff _ := mem_arcs wf start
  treeEdge _ := existsUnique_treeEdge wf start
  root_treeless _ := far_ne_root wf start
  unreachable_sublist := List.filter_sublist
  mem_unreachable_iff s := by
    rw [unreachable, List.mem_filter, Bool.not_eq_true', ← Bool.not_eq_true,
      isReachable_iff_leads wf start]

/-- From every state there is, also if it is taken because none is given, and in both directions the
tree is built and is breadth-first. If neither a start nor a direction is given, it holds the states
that the system itself lists as reachable. -/
theorem of_breadthFirst {ts : TransitionSystem} (wf : ts.WellFormed) :
    (∀ start? root d, start?.or ts.initial = some root → root ∈ ts.states →
      ∃ t, SpanningTree.of ts start? d = .ok t ∧ BreadthFirst ts d root t) ∧
    ∃ t, SpanningTree.of ts = .ok t ∧ ∀ s, t.isReachable s = true ↔ s ∈ ts.reachable := by
  constructor
  · intro start? root d start inside
    have known : ∀ s ∈ start?.or ts.initial, s ∈ ts.states := by
      intro s member
      rw [start, Option.mem_some_iff] at member
      exact member ▸ inside
    exact ⟨_, dif_pos known, breadthFirst (t := ⟨ts, _, d, known, _, rfl⟩) wf start⟩
  · refine ⟨_, dif_pos wf.initial_mem, fun s => ?_⟩
    rw [TransitionSystem.reachable_eq]
    exact Sweep.knows_iff

end SpanningTree

/-! ### Two ways to one state -/

def shortcut : TransitionSystem :=
  let first : Arc := ⟨"s0", "a", "s1", none⟩
  let second : Arc := ⟨"s1", "a", "s2", none⟩
  let direct : Arc := ⟨"s0", "b", "s2", none⟩
  let loop : Arc := ⟨"s2", "c", "s2", none⟩
  let before : Arc := ⟨"s3", "a", "s0", none⟩
  { initial := some "s0"
    incidences := [⟨"s0", [first, direct], [before]⟩, ⟨"s1", [second], [first]⟩,
      ⟨"s2", [loop], [second, direct, loop]⟩, ⟨"s3", [before], []⟩]
    arcs := [first, second, direct, loop, before]
    alphabet := ["a", "b", "c"] }

theorem shortcut_wellFormed : shortcut.WellFormed := by constructor <;> decide

/-- The paths to `s2` are searched backward from it. -/
theorem of_breadthFirst_shortcut : shortcut.WellFormed ∧
    ∃ t, SpanningTree.of shortcut (some "s2") .backward = .ok t ∧
      t.pathFromStart "s3" = ["s2", "s0", "s3"] ∧
      ∀ q, Direction.backward.Leads shortcut "s2" q "s3" → 2 ≤ q.length := by
  obtain ⟨t, built, tree⟩ :=
    (SpanningTree.of_breadthFirst shortcut_wellFormed).1 (some "s2") "s2" .backward rfl (by decide)
  have found : (SpanningTree.of shortcut (some "s2") .backward).map (·.isReachable "s3") =
      .ok true := by decide
  have nodes : (SpanningTree.of shortcut (some "s2") .backward).map (·.pathFromStart "s3") =
      .ok ["s2", "s0", "s3"] := by decide
  rw [built] at found nodes
  obtain ⟨p, _, _, along, shortest⟩ := tree.shortest_path "s3" (Except.ok.inj found)
  have two : p.length = 2 := by
    have := congrArg List.length (along.symm.trans (Except.ok.inj nodes))
    simpa using this
  exact ⟨shortcut_wellFormed, t, built, Except.ok.inj nodes, fun q leads => two ▸ shortest q leads⟩

end NetSynthesis
