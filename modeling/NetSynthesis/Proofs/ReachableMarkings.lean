import Mathlib.Order.Bounds.Basic
import NetSynthesis.NetProperties
import NetSynthesis.Proofs.MarkingExploration

/-! What a marking graph says about its net. Its states are the reachable markings, each just once,
and its arcs are the ways to fire a transition, so that the most tokens it shows on a place are the
most tokens there can be. No two transitions need have different labels for that. -/
namespace NetSynthesis.MarkingGraph

open LabelledGraph Net

variable {net : Net} {limit : Int} {g : MarkingGraph} {s : State} {m : Marking}

/-- The marking of a state. -/
def marking? (g : MarkingGraph) (s : State) : Option Marking :=
  (g.marked.find? (·.state == s)).map (·.marking)

def Fires (net : Net) (m : Marking) (e : Event) (k : Marking) : Prop :=
  ∃ t ∈ net.transitions, t.label = e ∧ net.isEnabled m t.id = .ok true ∧ net.fire m t.id = .ok k

/-- The states of a graph are the reachable markings, and its arcs are what the net can fire. -/
structure Exact (net : Net) (g : MarkingGraph) : Prop where
  wellFormed : g.system.WellFormed
  keys : g.marked.map (·.state) = g.system.states
  bijective : Set.BijOn g.marking? { s | s ∈ g.system.states }
    (some '' { m : Marking | net.behaviour.Reaches m })
  initial : ∃ s, g.system.initial = some s ∧ g.marking? s = some net.initialMarking
  arc_iff : ∀ s t m k, g.marking? s = some m → g.marking? t = some k → ∀ e,
    (∃ a ∈ g.system.arcs, a.source = s ∧ a.label = e ∧ a.target = t) ↔ Fires net m e k

theorem fires_iff {e : Event} {k : Marking} : Fires net m e k ↔ net.behaviour.Edge m e k := by
  refine exists_congr fun t => and_congr_right fun _ => and_congr_right fun _ => ?_
  refine ⟨And.right, fun fired => ⟨?_, fired⟩⟩
  obtain ⟨enabled, answer, rest⟩ := bind_eq_ok.1 fired
  cases enabled with
  | true => exact answer
  | false => simp [throw, throwThe, MonadExceptOf.throw] at rest

theorem Explored.marking?_eq_some (explored : Explored net limit g) :
    g.marking? s = some m ↔ Marks g s m := by
  rw [marking?, Option.map_eq_some_iff]
  constructor
  · rintro ⟨c, found, rfl⟩
    exact ⟨c, List.mem_of_find?_eq_some found, by simpa using List.find?_some found, rfl⟩
  · rintro ⟨c, member, rfl, rfl⟩
    exact ⟨c, find?_of_nodup explored.states_nodup member, rfl⟩

theorem exact_of (answer : of net limit = .ok g) : Exact net g := by
  obtain ⟨explored, _⟩ := of_eq_ok answer
  obtain ⟨first, initial, pairs⟩ := matches_of answer
  have marks {s : State} {m : Marking} : g.marking? s = some m ↔ Marks g s m :=
    explored.marking?_eq_some
  refine ⟨explored.wellFormed, explored.states.symm, ⟨?_, ?_, ?_⟩, ?_, ?_⟩
  · intro s (known : s ∈ g.system.states)
    rw [explored.states] at known
    obtain ⟨c, member, rfl⟩ := List.mem_map.1 known
    exact ⟨c.marking, explored.reached c member, (marks.2 ⟨c, member, rfl, rfl⟩).symm⟩
  · intro s (known : s ∈ g.system.states) t _ same
    rw [explored.states] at known
    obtain ⟨c, member, rfl⟩ := List.mem_map.1 known
    have left : g.marking? c.state = some c.marking := marks.2 ⟨c, member, rfl, rfl⟩
    exact pairs.source_unique _ _ _ (marks.1 left) (marks.1 (same.symm.trans left))
  · rintro _ ⟨m, reached, rfl⟩
    obtain ⟨c, member, rfl⟩ := exists_marked answer reached
    exact ⟨c.state, explored.mem_states member, marks.2 ⟨c, member, rfl, rfl⟩⟩
  · exact ⟨first, initial, marks.2 pairs.initial⟩
  · intro s t m k source target e
    rw [fires_iff]
    constructor
    · intro arc
      obtain ⟨k', target', edge⟩ := pairs.forth s e t m (marks.1 source) arc
      rwa [pairs.image_unique t k k' (marks.1 target) target']
    · intro edge
      obtain ⟨t', target', arc⟩ := pairs.back s e m k (marks.1 source) edge
      rwa [pairs.source_unique t t' k (marks.1 target) target']

theorem maxTokens_nonneg (g : MarkingGraph) : 0 ≤ g.maxTokens :=
  (foldl_max_le_iff.1 le_rfl).1

theorem maxTokens_eq_zero (answer : of net limit = .ok g) (none : net.places = []) :
    g.maxTokens = 0 := by
  refine le_antisymm ((maxTokens_le_iff answer le_rfl).2 fun m reached x member => ?_)
    g.maxTokens_nonneg
  obtain ⟨w, path⟩ := reached
  have length : m.length = 0 := ((IsMarking.initial net).path path).length.trans (by simp [none])
  simp [List.length_eq_zero_iff.1 length] at member

theorem isLeast_maxTokens (answer : of net limit = .ok g) (some : net.places ≠ []) :
    IsLeast { b : Int | ∀ m : Marking, net.behaviour.Reaches m → ∀ x ∈ m, x ≤ b }
      g.maxTokens := by
  refine ⟨(maxTokens_le_iff answer g.maxTokens_nonneg).1 le_rfl, fun b above => ?_⟩
  obtain ⟨p, member⟩ := List.exists_mem_of_ne_nil _ some
  have tokens : (p.tokens : Int) ≤ b :=
    above net.initialMarking net.behaviour.reaches_initial _ (List.mem_map_of_mem member)
  exact (maxTokens_le_iff answer ((Int.natCast_nonneg _).trans tokens)).2 above

/-- A graph that is returned shows all that the net can do, and the bound of the net is the least
number that no place ever has more tokens than. -/
theorem graph_exact (answer : of net limit = .ok g) : Exact net g ∧
    ∃ k, net.bound limit = .ok k ∧ (net.places = [] → k = 0) ∧ (net.places ≠ [] →
      IsLeast { b : Int | ∀ m : Marking, net.behaviour.Reaches m → ∀ x ∈ m, x ≤ b } k) := by
  refine ⟨exact_of answer, g.maxTokens, ?_, maxTokens_eq_zero answer, isLeast_maxTokens answer⟩
  rw [bound, answer]
  rfl

/-- A token that one label may move two ways, and another back. -/
def forkedNet : Net where
  places := [⟨"p", 1⟩, ⟨"q", 0⟩, ⟨"r", 0⟩]
  transitions := [⟨"left", "go"⟩, ⟨"right", "go"⟩, ⟨"back", "back"⟩]
  flows := [⟨"p", "left", 1⟩, ⟨"left", "q", 2⟩, ⟨"p", "right", 1⟩, ⟨"right", "r", 1⟩,
    ⟨"r", "back", 1⟩, ⟨"back", "p", 1⟩]

theorem graph_exact_forked : ∃ g, of forkedNet 3 = .ok g ∧ Exact forkedNet g ∧
    ∃ k, forkedNet.bound 3 = .ok k ∧ (forkedNet.places = [] → k = 0) ∧ (forkedNet.places ≠ [] →
      IsLeast { b : Int | ∀ m : Marking, forkedNet.behaviour.Reaches m → ∀ x ∈ m, x ≤ b } k) := by
  have check : (of forkedNet 3).toOption.isSome = true := by decide +kernel
  cases answer : of forkedNet 3 with
  | error e => simp [answer, Except.toOption] at check
  | ok g => exact ⟨g, rfl, graph_exact answer⟩

end NetSynthesis.MarkingGraph
