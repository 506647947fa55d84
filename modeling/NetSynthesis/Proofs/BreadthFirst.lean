import Mathlib.Data.List.Nodup
import Mathlib.Data.List.Perm.Subperm
import NetSynthesis.Proofs.WellFormedSystem
import NetSynthesis.SpanningTree

/-! What a breadth-first search finds. `Sweep.Sound` holds throughout a search: every state but the
start has been found by an arc from an earlier one, and every chord joins states found. After as
many rounds as there are states all arcs at states found have been met, so the tree holds exactly
the states that the start leads to, and `SpanningTree.tree_induction` carries a property from the
start along the tree edges to all of them. A system's own list of what can be reached holds the
same states. -/
namespace NetSynthesis

theorem Direction.mem_edges {ts : TransitionSystem} (wf : ts.WellFormed) {d : Direction}
    {s : State} {a : Arc} : a ∈ d.edges ts s ↔ a ∈ ts.arcs ∧ d.near a = s := by
  cases d with
  | forward => exact wf.mem_outgoing
  | backward => exact wf.mem_incoming

theorem Direction.far_mem_states {ts : TransitionSystem} (wf : ts.WellFormed) {d : Direction}
    {s : State} {a : Arc} (member : a ∈ d.edges ts s) : d.far a ∈ ts.states := by
  have ends := wf.arc_ends a ((mem_edges wf).1 member).1
  cases d with
  | forward => exact ends.2
  | backward => exact ends.1

namespace Sweep

variable {ts : TransitionSystem} {d : Direction} {root : State} {v w : Sweep}

def names (w : Sweep) : List State := w.discovered.map (·.1)

theorem knows_iff {s : State} : w.knows s = true ↔ s ∈ w.names := by
  simp [knows, names]

/-- Each state but the first was found by an arc from a state before it. -/
structure Sound (ts : TransitionSystem) (d : Direction) (root : State) (w : Sweep) : Prop where
  head : w.discovered[0]? = some (root, none)
  nodup : w.names.Nodup
  origin : ∀ i s x, w.discovered[i + 1]? = some (s, x) → ∃ a, x = some a ∧ d.far a = s ∧
    a ∈ d.edges ts (d.near a) ∧ ∃ j ≤ i, w.names[j]? = some (d.near a)
  chord : ∀ a ∈ w.chords, a ∈ d.edges ts (d.near a) ∧ d.near a ∈ w.names ∧ d.far a ∈ w.names

/-- What has been found stays found. -/
structure Grows (v w : Sweep) : Prop where
  discovered : v.discovered <+: w.discovered
  chords : v.chords <+: w.chords

/-- The arc is a tree edge or a chord. -/
def Met (d : Direction) (w : Sweep) (a : Arc) : Prop :=
  (d.far a, some a) ∈ w.discovered ∨ a ∈ w.chords

theorem Grows.refl (w : Sweep) : Grows w w := ⟨List.prefix_rfl, List.prefix_rfl⟩

theorem Grows.trans {u : Sweep} (first : Grows u v) (second : Grows v w) : Grows u w :=
  ⟨first.discovered.trans second.discovered, first.chords.trans second.chords⟩

theorem Grows.names (grows : Grows v w) : v.names <+: w.names := grows.discovered.map _

theorem Grows.met (grows : Grows v w) {a : Arc} (met : Met d v a) : Met d w a :=
  met.imp (grows.discovered.subset ·) (grows.chords.subset ·)

theorem Sound.start : Sound ts d root { discovered := [(root, none)] } := by
  constructor <;> simp [Sweep.names]

theorem Sound.follow (sound : Sound ts d root w) {a : Arc} (edge : a ∈ d.edges ts (d.near a))
    (near : d.near a ∈ w.names) :
    Sound ts d root (w.follow d a) ∧ Grows w (w.follow d a) ∧ Met d (w.follow d a) a := by
  rw [Sweep.follow]
  by_cases known : w.knows (d.far a) = true
  · rw [if_pos known]
    have far := knows_iff.1 known
    refine ⟨⟨sound.head, sound.nodup, sound.origin, ?_⟩, ⟨List.prefix_rfl, List.prefix_append ..⟩,
      .inr (by simp)⟩
    intro b member
    rcases List.mem_append.1 member with old | new
    · exact sound.chord b old
    · obtain rfl := List.mem_singleton.1 new
      exact ⟨edge, near, far⟩
  · rw [if_neg known]
    have fresh : d.far a ∉ w.names := fun far => known (knows_iff.2 far)
    have names : ({ w with discovered := w.discovered ++ [(d.far a, some a)] } : Sweep).names =
        w.names ++ [d.far a] := by simp [Sweep.names]
    refine ⟨⟨?_, ?_, ?_, ?_⟩, ⟨List.prefix_append .., List.prefix_rfl⟩, .inl (by simp)⟩
    · have bound := (List.getElem?_eq_some_iff.1 sound.head).1
      rw [List.getElem?_append_left bound, sound.head]
    · rw [names]
      exact List.nodup_append.2 ⟨sound.nodup, by simp, by rintro s member t single rfl; simp_all⟩
    · intro i s x found
      rw [names]
      by_cases inside : i + 1 < w.discovered.length
      · rw [List.getElem?_append_left inside] at found
        obtain ⟨b, rfl, far, member, j, before, earlier⟩ := sound.origin i s x found
        refine ⟨b, rfl, far, member, j, before, ?_⟩
        rw [List.getElem?_append_left (List.getElem?_eq_some_iff.1 earlier).1, earlier]
      · rw [List.getElem?_append_right (by omega)] at found
        have last : i + 1 = w.discovered.length := by
          have := (List.getElem?_eq_some_iff.1 found).1
          simp at this; omega
        simp only [last, Nat.sub_self, List.getElem?_cons_zero, Option.some.injEq,
          Prod.mk.injEq] at found
        obtain ⟨rfl, rfl⟩ := found
        obtain ⟨j, inNames, at_j⟩ := List.getElem_of_mem near
        have bound : j < w.discovered.length := by simpa [Sweep.names] using inNames
        refine ⟨a, rfl, rfl, edge, j, by omega, ?_⟩
        rw [List.getElem?_append_left inNames, List.getElem?_eq_getElem inNames, at_j]
    · intro b member
      obtain ⟨edge, near, far⟩ := sound.chord b member
      rw [names]
      exact ⟨edge, List.mem_append_left _ near, List.mem_append_left _ far⟩

theorem Sound.follow_all (wf : ts.WellFormed) {s : State} (arcs : List Arc)
    (edges : ∀ a ∈ arcs, a ∈ d.edges ts s) (sound : Sound ts d root w) (found : s ∈ w.names) :
    let next := arcs.foldl (Sweep.follow d) w
    Sound ts d root next ∧ Grows w next ∧ ∀ a ∈ arcs, Met d next a := by
  induction arcs generalizing w with
  | nil => exact ⟨sound, .refl w, by simp⟩
  | cons a arcs ih =>
    have edge := edges a (by simp)
    have near := ((Direction.mem_edges wf).1 edge).2
    obtain ⟨kept, grows, met⟩ := sound.follow (by rw [near]; exact edge) (by rw [near]; exact found)
    obtain ⟨sound', grows', met'⟩ := ih (fun b member => edges b (by simp [member])) kept
      (grows.names.subset found)
    refine ⟨sound', grows.trans grows', fun b member => ?_⟩
    rcases List.mem_cons.1 member with rfl | rest
    · exact grows'.met met
    · exact met' b rest

theorem Sound.round (wf : ts.WellFormed) (sound : Sound ts d root w) (k : Nat) :
    Sound ts d root (w.round ts d k) ∧ Grows w (w.round ts d k) ∧
      ∀ s x, w.discovered[k]? = some (s, x) → ∀ a ∈ d.edges ts s, Met d (w.round ts d k) a := by
  rw [Sweep.round]
  cases found : w.discovered[k]? with
  | none => exact ⟨sound, .refl w, by simp⟩
  | some p =>
    obtain ⟨s, x⟩ := p
    have member : s ∈ w.names := List.mem_map_of_mem (List.mem_of_getElem? found)
    obtain ⟨kept, grows, met⟩ := sound.follow_all wf (d.edges ts s) (fun _ => id) member
    refine ⟨kept, grows, ?_⟩
    rintro t y same
    obtain ⟨rfl, rfl⟩ := Prod.mk.inj (Option.some.inj same)
    exact met

def rounds (ts : TransitionSystem) (d : Direction) (root : State) (n : Nat) : Sweep :=
  (List.range n).foldl (Sweep.round ts d) { discovered := [(root, none)] }

theorem rounds_succ (n : Nat) :
    rounds ts d root (n + 1) = (rounds ts d root n).round ts d n := by
  simp only [rounds, List.range_succ, List.foldl_append, List.foldl_cons, List.foldl_nil]

theorem rounds_idle {k n : Nat} (idle : (rounds ts d root k).discovered[k]? = none)
    (later : k ≤ n) : rounds ts d root n = rounds ts d root k := by
  induction n, later using Nat.le_induction with
  | base => rfl
  | succ n later ih =>
    have short := List.getElem?_eq_none_iff.1 idle
    rw [rounds_succ, ih, Sweep.round, List.getElem?_eq_none (short.trans later)]

/-- After `n` rounds all arcs at the first `n` states found have been met. -/
theorem rounds_met (wf : ts.WellFormed) (n : Nat) :
    Sound ts d root (rounds ts d root n) ∧
      ∀ i < n, ∀ s x, (rounds ts d root n).discovered[i]? = some (s, x) →
        ∀ a ∈ d.edges ts s, Met d (rounds ts d root n) a := by
  induction n with
  | zero => exact ⟨.start, by simp⟩
  | succ n ih =>
    rw [rounds_succ]
    generalize rounds ts d root n = w at ih ⊢
    obtain ⟨sound, done⟩ := ih
    obtain ⟨kept, grows, met⟩ := sound.round wf n
    have settled := settled_succ (P := fun p => ∀ a ∈ d.edges ts p.1, Met d (w.round ts d n) a)
      grows.discovered (fun nothing => by rw [Sweep.round, nothing])
      (fun i bound p found a edge => grows.met (done i bound p.1 p.2 found a edge))
      (fun p found => met p.1 p.2 found)
    exact ⟨kept, fun i bound s x found => settled i bound (s, x) found⟩

theorem Sound.mem_states (wf : ts.WellFormed) (sound : Sound ts d root w) (start : root ∈ ts.states)
    {s : State} (found : s ∈ w.names) : s ∈ ts.states := by
  obtain ⟨p, member, rfl⟩ := List.mem_map.1 found
  obtain ⟨i, bound, rfl⟩ := List.getElem_of_mem member
  have at_i := List.getElem?_eq_getElem bound
  cases i with
  | zero =>
    have := sound.head.symm.trans at_i
    rw [← Option.some.inj this]; exact start
  | succ i =>
    obtain ⟨a, _, far, edge, _⟩ := sound.origin i _ _ at_i
    have member := Direction.far_mem_states wf edge
    rwa [far] at member

theorem Sound.length_le (wf : ts.WellFormed) (sound : Sound ts d root w)
    (start : root ∈ ts.states) : w.discovered.length ≤ ts.states.length := by
  have few : w.names.length ≤ ts.states.length :=
    (sound.nodup.subperm fun _ found => sound.mem_states wf start found).length_le
  rwa [names, List.length_map] at few

theorem all_sound (wf : ts.WellFormed) (start : root ∈ ts.states) :
    Sound ts d root (Sweep.all ts d (some root)) ∧
      ∀ s ∈ (Sweep.all ts d (some root)).names, ∀ a ∈ d.edges ts s,
        Met d (Sweep.all ts d (some root)) a := by
  obtain ⟨sound, met⟩ : Sound ts d root (Sweep.all ts d (some root)) ∧ _ :=
    rounds_met wf ts.states.length
  refine ⟨sound, fun s found => ?_⟩
  obtain ⟨⟨_, x⟩, member, rfl⟩ := List.mem_map.1 found
  obtain ⟨i, bound, at_i⟩ := List.getElem_of_mem member
  refine met i (Nat.lt_of_lt_of_le bound (sound.length_le wf start)) _ x ?_
  exact (List.getElem?_eq_getElem bound).trans (congrArg some at_i)

/-! ### Searches in two systems -/

theorem rounds_eq_all (wf : ts.WellFormed) (start : root ∈ ts.states) {n : Nat}
    (enough : ts.states.length ≤ n) : rounds ts d root n = Sweep.all ts d (some root) :=
  rounds_idle (List.getElem?_eq_none ((all_sound wf start).1.length_le wf start)) enough

/-- A search follows no other edges than those at the states that it finds. -/
theorem rounds_congr {ts' : TransitionSystem} (wf : ts.WellFormed) {n : Nat}
    (same : ∀ s ∈ (rounds ts d root n).names, d.edges ts' s = d.edges ts s) :
    rounds ts' d root n = rounds ts d root n := by
  induction n with
  | zero => rfl
  | succ n ih =>
    have sound : Sound ts d root (rounds ts d root n) := (rounds_met wf n).1
    have grows := (sound.round wf n).2.1
    rw [rounds_succ] at same
    have before := ih fun s found => same s (grows.names.subset found)
    rw [rounds_succ, rounds_succ, before, Sweep.round, Sweep.round]
    cases found : (rounds ts d root n).discovered[n]? with
    | none => rfl
    | some p =>
      have known : p.1 ∈ (rounds ts d root n).names :=
        List.mem_map_of_mem (List.mem_of_getElem? found)
      simp only [same p.1 (grows.names.subset known)]

/-- Searches in two systems find the same if they meet the same edges at the states that one of
them finds. -/
theorem all_congr {ts' : TransitionSystem} (wf : ts.WellFormed) (wf' : ts'.WellFormed)
    (start : root ∈ ts.states) (start' : root ∈ ts'.states)
    (same : ∀ s ∈ (Sweep.all ts d (some root)).names, d.edges ts' s = d.edges ts s) :
    Sweep.all ts' d (some root) = Sweep.all ts d (some root) := by
  have all := rounds_eq_all (d := d) wf start (Nat.le_add_right _ ts'.states.length)
  have all' := rounds_eq_all (d := d) wf' start' (Nat.le_add_left _ ts.states.length)
  rw [← all] at same ⊢
  rw [← all', rounds_congr wf same]

end Sweep

namespace SpanningTree

variable {t : SpanningTree} {root : State}

theorem mem_reached {s : State} : s ∈ t.reached ↔ t.isReachable s = true :=
  Sweep.knows_iff.symm

theorem isReachable_of_predecessorEdge? {s : State} {a : Arc}
    (tree : t.predecessorEdge? s = some a) : t.isReachable s = true := by
  obtain ⟨p, first, _⟩ := Option.bind_eq_some_iff.1 tree
  have key := List.find?_some first
  exact List.any_eq_true.2 ⟨p, List.mem_of_find?_eq_some first, key⟩

theorem exists_start {s : State} (found : t.isReachable s = true) :
    ∃ root, t.start = some root := by
  cases start : t.start with
  | some root => exact ⟨root, rfl⟩
  | none =>
    rw [isReachable, t.sweep_eq, start] at found
    exact absurd found Bool.false_ne_true

section

variable (wf : t.graph.WellFormed) (start : t.start = some root)

include wf start

theorem sweep_sound : Sweep.Sound t.graph t.direction root t.sweep ∧
    ∀ s ∈ t.sweep.names, ∀ a ∈ t.direction.edges t.graph s, Sweep.Met t.direction t.sweep a := by
  rw [t.sweep_eq, start]
  exact Sweep.all_sound wf (t.start_mem root start)

theorem isReachable_root : t.isReachable root = true := by
  have head := (sweep_sound wf start).1.head
  exact mem_reached.1 (List.mem_map_of_mem (List.mem_of_getElem? head))

theorem mem_states_of_isReachable {s : State} (found : t.isReachable s = true) :
    s ∈ t.graph.states :=
  (sweep_sound wf start).1.mem_states wf (t.start_mem root start) (Sweep.knows_iff.1 found)

theorem predecessorEdge?_eq_some {s : State} {a : Arc} :
    t.predecessorEdge? s = some a ↔ (s, some a) ∈ t.sweep.discovered := by
  have nodup := (sweep_sound wf start).1.nodup
  rw [predecessorEdge?]
  constructor
  · intro found
    obtain ⟨⟨s', x⟩, first, arc⟩ := Option.bind_eq_some_iff.1 found
    have same : s' = s := by simpa using List.find?_some first
    simp only at arc
    rw [← same, ← arc]
    exact List.mem_of_find?_eq_some first
  · intro member
    cases first : t.sweep.discovered.find? (·.1 == s) with
    | none => simp [List.find?_eq_none] at first; exact absurd rfl (first s _ member)
    | some p =>
      have same : p.1 = s := by simpa using List.find?_some first
      have eq := List.inj_on_of_nodup_map nodup (List.mem_of_find?_eq_some first) member same
      rw [eq]; rfl

theorem predecessorEdge?_root : t.predecessorEdge? root = none := by
  have sound := (sweep_sound wf start).1
  cases found : t.predecessorEdge? root with
  | none => rfl
  | some a =>
    have member := (predecessorEdge?_eq_some wf start).1 found
    have eq := List.inj_on_of_nodup_map sound.nodup member (List.mem_of_getElem? sound.head) rfl
    simp at eq

/-- Every arc at a reachable state leads to a reachable state, as its tree edge or as a chord. -/
theorem edge_cases {s : State} (found : t.isReachable s = true) {a : Arc}
    (edge : a ∈ t.direction.edges t.graph s) : t.isReachable (t.direction.far a) = true ∧
      (t.predecessorEdge? (t.direction.far a) = some a ∨ a ∈ t.chords) := by
  obtain ⟨sound, met⟩ := sweep_sound wf start
  rcases met s (Sweep.knows_iff.1 found) a edge with tree | chord
  · exact ⟨Sweep.knows_iff.2 (List.mem_map_of_mem tree),
      .inl ((predecessorEdge?_eq_some wf start).2 tree)⟩
  · exact ⟨Sweep.knows_iff.2 (sound.chord a chord).2.2, .inr chord⟩

theorem chord_spec {a : Arc} (chord : a ∈ t.chords) :
    a ∈ t.direction.edges t.graph (t.direction.near a) ∧
      t.isReachable (t.direction.near a) = true ∧ t.isReachable (t.direction.far a) = true := by
  obtain ⟨edge, near, far⟩ := (sweep_sound wf start).1.chord a chord
  exact ⟨edge, Sweep.knows_iff.2 near, Sweep.knows_iff.2 far⟩

theorem mem_treeEdges {a : Arc} :
    a ∈ t.treeEdges ↔ t.predecessorEdge? (t.direction.far a) = some a := by
  rw [predecessorEdge?_eq_some wf start, treeEdges, List.mem_filterMap]
  constructor
  · rintro ⟨⟨s, x⟩, member, rfl⟩
    have sound := (sweep_sound wf start).1
    obtain ⟨i, at_i⟩ := List.mem_iff_getElem?.1 member
    cases i with
    | zero => simp [sound.head] at at_i
    | succ i =>
      obtain ⟨b, same, rfl, _⟩ := sound.origin i s _ at_i
      obtain rfl := Option.some.inj same
      exact member
  · exact fun member => ⟨_, member, rfl⟩

/-- A reachable state is the start, or a tree edge leads to it from a state found before. -/
theorem position_cases {s : State} {i : Nat} (found : t.sweep.names[i]? = some s) : s = root ∨
    ∃ a, t.predecessorEdge? s = some a ∧ t.direction.far a = s ∧
      a ∈ t.direction.edges t.graph (t.direction.near a) ∧
      ∃ j < i, t.sweep.names[j]? = some (t.direction.near a) := by
  have sound := (sweep_sound wf start).1
  rw [Sweep.names, List.getElem?_map, Option.map_eq_some_iff] at found
  obtain ⟨⟨_, x⟩, at_i, rfl⟩ := found
  cases i with
  | zero => exact .inl (congrArg Prod.fst (Option.some.inj (at_i.symm.trans sound.head)))
  | succ i =>
    obtain ⟨a, rfl, far, edge, j, before, near⟩ := sound.origin i _ _ at_i
    refine .inr ⟨a, (predecessorEdge?_eq_some wf start).2 (List.mem_of_getElem? at_i), far, edge,
      j, by omega, near⟩

theorem treeEdge_spec {a : Arc} (tree : a ∈ t.treeEdges) :
    a ∈ t.direction.edges t.graph (t.direction.near a) ∧
      t.isReachable (t.direction.near a) = true ∧ t.isReachable (t.direction.far a) = true := by
  have edge := (mem_treeEdges wf start).1 tree
  have found : t.direction.far a ∈ t.sweep.names :=
    List.mem_map_of_mem ((predecessorEdge?_eq_some wf start).1 edge)
  obtain ⟨i, at_i⟩ := List.mem_iff_getElem?.1 found
  rcases position_cases wf start at_i with top | ⟨b, same, _, member, j, _, near⟩
  · rw [top, predecessorEdge?_root wf start] at edge
    simp at edge
  · obtain rfl := Option.some.inj (edge.symm.trans same)
    exact ⟨member, Sweep.knows_iff.2 (List.mem_of_getElem? near), Sweep.knows_iff.2 found⟩

/-- What holds at the start and is passed on by tree edges holds at all reachable states. -/
theorem tree_induction {P : State → Prop} (base : P root)
    (step : ∀ a, t.isReachable (t.direction.near a) = true →
      a ∈ t.direction.edges t.graph (t.direction.near a) →
      t.predecessorEdge? (t.direction.far a) = some a → P (t.direction.near a) →
      P (t.direction.far a)) {s : State} (found : t.isReachable s = true) : P s := by
  obtain ⟨i, at_i⟩ := List.mem_iff_getElem?.1 (Sweep.knows_iff.1 found)
  clear found
  induction i using Nat.strong_induction_on generalizing s with
  | _ i ih =>
    rcases position_cases wf start at_i with rfl | ⟨a, tree, rfl, edge, j, before, near⟩
    · exact base
    · exact step a (Sweep.knows_iff.2 (List.mem_of_getElem? near)) edge tree (ih j before near)

theorem isReachable_iff_reaches (forward : t.direction = .forward) {s : State} :
    t.isReachable s = true ↔ (t.graph.behaviour root).Reaches s := by
  constructor
  · intro found
    refine tree_induction wf start (LabelledGraph.reaches_initial _) ?_ found
    rw [forward]
    intro a _ edge _ reached
    exact LabelledGraph.Reaches.step reached ⟨a, (wf.mem_outgoing.1 edge).1, rfl, rfl, rfl⟩
  · intro reached
    refine LabelledGraph.Reaches.invariant (P := fun s => t.isReachable s = true) reached
      (isReachable_root wf start) ?_
    rintro _ _ _ _ found ⟨a, arc, rfl, rfl, rfl⟩
    have target := (edge_cases wf start found (a := a)
      (by rw [forward]; exact wf.mem_outgoing.2 ⟨arc, rfl⟩)).1
    rwa [forward] at target

/-- The number of tree edges above a state is at most its place in the order of finding. -/
theorem climb_stable {s : State} {i : Nat} (found : t.sweep.names[i]? = some s) {n : Nat}
    (enough : i ≤ n) : t.climb n s = t.climb i s := by
  induction i using Nat.strong_induction_on generalizing s n with
  | _ i ih =>
    rcases position_cases wf start found with rfl | ⟨a, tree, _, _, j, before, near⟩
    · have top : ∀ m, t.climb m s = [] := by
        intro m
        cases m with
        | zero => rfl
        | succ m => simp [climb, predecessorEdge?_root wf start]
      rw [top, top]
    · obtain ⟨i, rfl⟩ : ∃ k, i = k + 1 := ⟨i - 1, by omega⟩
      obtain ⟨n, rfl⟩ : ∃ k, n = k + 1 := ⟨n - 1, by omega⟩
      simp only [climb, tree]
      rw [ih j before near (by omega : j ≤ n), ih j before near (by omega : j ≤ i)]

theorem pathEdges_root : t.pathEdges root = [] := by
  rw [pathEdges]
  cases t.sweep.discovered.length with
  | zero => rfl
  | succ n => simp [climb, predecessorEdge?_root wf start]

theorem pathEdges_step {s : State} {a : Arc} (tree : t.predecessorEdge? s = some a) :
    t.pathEdges s = t.pathEdges (t.direction.near a) ++ [a] := by
  have member := (predecessorEdge?_eq_some wf start).1 tree
  obtain ⟨i, bound, at_i⟩ := List.getElem_of_mem member
  have found : t.sweep.names[i]? = some s := by
    simp [Sweep.names, List.getElem?_eq_getElem bound, at_i]
  rcases position_cases wf start found with rfl | ⟨b, same, _, _, j, before, near⟩
  · rw [predecessorEdge?_root wf start] at tree; simp at tree
  · obtain rfl := Option.some.inj (tree.symm.trans same)
    simp only [pathEdges]
    obtain ⟨n, length⟩ : ∃ n, t.sweep.discovered.length = n + 1 :=
      ⟨_, (Nat.succ_pred (by omega)).symm⟩
    rw [length, climb_stable wf start near (by omega : j ≤ n + 1)]
    simp only [climb, tree]
    rw [climb_stable wf start near (by omega : j ≤ n)]

end

end SpanningTree

/-! ### States found without a tree -/

namespace Sweep

theorem names_follow (d : Direction) (w : Sweep) (a : Arc) : (w.follow d a).names =
    if w.names.contains (d.far a) then w.names else w.names ++ [d.far a] := by
  rw [Sweep.follow]
  by_cases known : w.knows (d.far a) = true
  · rw [if_pos known, if_pos (List.contains_iff_mem.2 (knows_iff.1 known))]
    rfl
  · have new : ¬ w.names.contains (d.far a) = true :=
      fun found => known (knows_iff.2 (List.contains_iff_mem.1 found))
    rw [if_neg known, if_neg new]
    simp [names]

theorem names_round (ts : TransitionSystem) (w : Sweep) (k : Nat) :
    (w.round ts .forward k).names = match w.names[k]? with
      | none => w.names
      | some t => (ts.outgoing t).foldl (fun found a =>
          if found.contains a.target then found else found ++ [a.target]) w.names := by
  rw [round]
  cases found : w.discovered[k]? with
  | none => simp [names, found]
  | some p =>
    have name : w.names[k]? = some p.1 := by simp [names, found]
    rw [name]
    exact (List.foldl_hom names fun w a => (names_follow .forward w a).symm).symm

end Sweep

namespace TransitionSystem

variable {ts : TransitionSystem} {root : State}

theorem reachable_eq (ts : TransitionSystem) :
    ts.reachable = (Sweep.all ts .forward ts.initial).names := by
  rw [reachable]
  cases ts.initial with
  | none => rfl
  | some root =>
    change List.foldl _ (Sweep.names { discovered := [(root, none)] }) _ =
      (List.foldl (Sweep.round ts .forward) _ _).names
    refine List.foldl_hom Sweep.names fun w k => ?_
    exact (Sweep.names_round ts w k).symm

theorem isTotallyReachable_iff (wf : ts.WellFormed) (initial : ts.initial = some root) :
    ts.isTotallyReachable = true ↔ ∀ s ∈ ts.states, (ts.behaviour root).Reaches s := by
  let t : SpanningTree := ⟨ts, ts.initial, .forward, wf.initial_mem, _, rfl⟩
  have nodup : ts.reachable.Nodup := by
    rw [reachable_eq]
    exact (SpanningTree.sweep_sound (t := t) wf initial).1.nodup
  have found (s : State) : s ∈ ts.reachable ↔ (ts.behaviour root).Reaches s := by
    rw [reachable_eq, ← SpanningTree.isReachable_iff_reaches (t := t) wf initial rfl]
    exact Sweep.knows_iff.symm
  have known : ts.reachable ⊆ ts.states := by
    intro s member
    rw [reachable_eq] at member
    exact SpanningTree.mem_states_of_isReachable (t := t) wf initial (Sweep.knows_iff.2 member)
  rw [isTotallyReachable, beq_iff_eq]
  constructor
  · intro many s member
    exact (found s).1 (((nodup.subperm known).perm_of_length_le many.ge).mem_iff.2 member)
  · intro all
    have listed : ts.states ⊆ ts.reachable := fun s member => (found s).2 (all s member)
    exact ((nodup.subperm known).antisymm (wf.states_nodup.subperm listed)).length_eq

end TransitionSystem

end NetSynthesis
