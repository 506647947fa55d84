import NetSynthesis.Proofs.EventLocations
import NetSynthesis.Proofs.RegionBasis
import NetSynthesis.Proofs.SynthesizedLanguage
import NetSynthesis.Proofs.WordLines

/-! The frame on which a net for a word is synthesized. One path leads to each of its states, so
that every effect is consistent, the basis are the units, and the tokens of a region are counted
along a prefix of the word. -/
namespace NetSynthesis

open IntVector LabelledGraph

variable {f : Frame} {root s : State} {word v v' : List Event} {e : Event} {w : IntVector}

namespace Frame

theorem locations_of_unlocated (nowhere : ∀ a ∈ f.graph.arcs, a.location = none) :
    f.locations = .ok (List.replicate f.size none) := by
  have nothing {arcs : List Arc} (nowhere : ∀ a ∈ arcs, a.location = none) :
      arcs.foldlM addLocation [] = .ok [] := by
    induction arcs with
    | nil => rfl
    | cons a arcs ih =>
      obtain ⟨first, rest⟩ := List.forall_mem_cons.1 nowhere
      rw [List.foldlM_cons, show addLocation [] a = .ok [] by simp [addLocation, first]]
      exact ih rest
  rw [locations_eq, nothing nowhere]
  rfl

/-- A frame whose paths from the root are the prefixes of a word. -/
structure Spells (f : Frame) (root : State) (word : List Event) : Prop where
  rooted : f.Rooted root
  initial : f.graph.initial = some root
  deterministic : f.graph.isDeterministic = true
  path_iff : ∀ v, (∃ s, (f.graph.behaviour root).Path root v s) ↔ v <+: word
  mem_events : ∀ e, e ∈ f.events ↔ e ∈ word
  located : f.locations = .ok (List.replicate f.size none)

end Frame

theorem exists_spells (word : List Event) : ∃ ts f root, TransitionSystem.ofWord word = .ok ts ∧
    Frame.ofLanguage ts = .ok f ∧ f.Spells root word := by
  obtain ⟨ts, made, line⟩ := TransitionSystem.exists_line word
  obtain ⟨u, first, trace, f, unfolds, framed, graph, rooted⟩ :=
    exists_ofLanguage line.wellFormed line.isDeterministic line.initial
  refine ⟨ts, f, first, made, framed, rooted, graph ▸ unfolds.initial,
    graph ▸ unfolds.isDeterministic, fun v => ?_, fun e => ?_, ?_⟩
  · have language : v ∈ (u.system.behaviour first).language ↔
        v ∈ (ts.behaviour (TransitionSystem.lineState 0)).language := by
      rw [(unfolds.tracks line.wellFormed).language_eq]
    rw [graph]
    refine language.trans ⟨?_, fun before => ⟨_, line.path_iff.2 ⟨before, rfl⟩⟩⟩
    rintro ⟨s, path⟩
    exact (line.path_iff.1 path).1
  · rw [Frame.events, graph, unfolds.grown.alphabet]
    exact line.mem_alphabet e
  · apply Frame.locations_of_unlocated
    intro b arc
    rw [graph] at arc
    obtain ⟨a, member, copy⟩ := unfolds.grown.arcs b arc
    rw [line.arcs, TransitionSystem.mem_lineArcs] at member
    obtain ⟨_, _, _, _, nowhere⟩ := member
    exact copy.location.trans nowhere

namespace Frame.Spells

variable (spells : f.Spells root word)

include spells

theorem behaviour_deterministic : (f.graph.behaviour root).Deterministic :=
  spells.rooted.wellFormed.behaviour_deterministic spells.deterministic root

theorem eq_nil_of_loop (path : (f.graph.behaviour root).Path root v s)
    (loop : (f.graph.behaviour root).Path s v' s) : v' = [] := by
  by_contra some
  have around := path.append (loop.repeat (word.length + 1))
  have short := ((spells.path_iff _).1 ⟨s, around⟩).length_le
  have long : 0 < v'.length := List.length_pos_iff.2 some
  have more : word.length + 1 ≤ (word.length + 1) * v'.length := Nat.le_mul_of_pos_right _ long
  simp only [List.length_append, List.length_flatten, List.map_replicate, List.sum_replicate_nat]
    at short
  omega

theorem word_unique (path : (f.graph.behaviour root).Path root v s)
    (other : (f.graph.behaviour root).Path root v' s) : v = v' := by
  have shorter {u d : List Event} (path : (f.graph.behaviour root).Path root u s)
      (longer : (f.graph.behaviour root).Path root (u ++ d) s) : d = [] := by
    obtain ⟨n, before, behind⟩ := longer.split
    obtain rfl := spells.behaviour_deterministic.path_unique path before
    exact spells.eq_nil_of_loop path behind
  rcases List.prefix_or_prefix_of_prefix ((spells.path_iff v).1 ⟨s, path⟩)
    ((spells.path_iff v').1 ⟨s, other⟩) with ⟨d, rfl⟩ | ⟨d, rfl⟩
  · rw [shorter path other, List.append_nil]
  · rw [shorter other path, List.append_nil]

theorem consistent (w : IntVector) : f.Consistent w := by
  refine consistent_of_pathIndependent spells.rooted fun root' start s v v' path path' => ?_
  obtain rfl : root = root' := Option.some.inj (spells.rooted.start.symm.trans start)
  rw [spells.word_unique path path']

/-- The tokens in a state are counted along the word that leads there. -/
theorem tokens_eq (path : (f.graph.behaviour root).Path root v s) (r : Region f.size) :
    f.tokens r s = r.initial + f.gain r.effect v := by
  have found := spells.rooted.isReachable_iff_reaches.2 ⟨v, path⟩
  rw [tokens, Region.tokensAfter, dot_vector spells.rooted r.effect found,
    spells.word_unique (path_pathWord spells.rooted found) path]

theorem exists_state (before : v <+: word) : ∃ s, (f.graph.behaviour root).Path root v s ∧
    f.isReachable s = true := by
  obtain ⟨s, path⟩ := (spells.path_iff v).2 before
  exact ⟨s, path, spells.rooted.isReachable_iff_reaches.2 ⟨v, path⟩⟩

theorem exists_prefix (found : f.isReachable s = true) :
    ∃ v, (f.graph.behaviour root).Path root v s ∧ v <+: word := by
  obtain ⟨v, path⟩ := spells.rooted.isReachable_iff_reaches.1 found
  exact ⟨v, path, (spells.path_iff v).1 ⟨s, path⟩⟩

theorem enables_iff (path : (f.graph.behaviour root).Path root v s) :
    (∃ a ∈ f.graph.outgoing s, a.label = e) ↔ v ++ [e] <+: word := by
  rw [← spells.path_iff]
  constructor
  · rintro ⟨a, edge, rfl⟩
    obtain ⟨arc, source⟩ := spells.rooted.wellFormed.mem_outgoing.1 edge
    exact ⟨a.target, .snoc path ⟨a, arc, source, rfl, rfl⟩⟩
  · rintro ⟨t, longer⟩
    obtain ⟨n, before, a, arc, source, label, _⟩ := longer.last
    obtain rfl := spells.behaviour_deterministic.path_unique path before
    exact ⟨a, spells.rooted.wellFormed.mem_outgoing.2 ⟨arc, source⟩, label⟩

theorem mem_enabling_iff (path : (f.graph.behaviour root).Path root v s) :
    s ∈ f.enabling e ↔ v ++ [e] <+: word := by
  rw [mem_enabling spells.rooted.wellFormed, ← spells.enables_iff path]
  exact and_iff_right (spells.rooted.isReachable_iff_reaches.2 ⟨v, path⟩)

end Frame.Spells

end NetSynthesis
