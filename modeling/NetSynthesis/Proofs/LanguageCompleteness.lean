import NetSynthesis.Proofs.NetCompleteness
import NetSynthesis.Proofs.SynthesizedLanguage

/-! Completeness of synthesis up to the language. A bounded net with the language of a system need
not have the system for its marking graph, but it follows the unfolding: every copy has a word of
its own and so a marking, and what the net can fire again and again leads back to the marking it
started from, so that the loops of the unfolding are loops of the net. -/
namespace NetSynthesis

open NetSynthesis.Frame LabelledGraph Unfolding

variable {ts : TransitionSystem} {root first : State} {u : Unfolding} {trace : State → List Event}
  {solve : Solver} {goal : NetClass} {o : Options} {net : Net} {h : LabelledGraph}

/-- A word that can be followed again and again leads back to where it begins. -/
def LabelledGraph.Returns (h : LabelledGraph) : Prop :=
  ∀ m w k, h.Reaches m → h.Path m w k → (∀ n, ∃ l, h.Path m (List.replicate n w).flatten l) → k = m

theorem Net.Labelled.returns (labelled : net.Labelled) (bounded : net.Bounded) :
    net.behaviour.Returns := fun _ _ _ reached path again =>
  labelled.eq_of_repeated bounded reached path again

namespace Unfolding.Unfolds

variable (unfolds : Unfolds ts root u first trace)

include unfolds

theorem deterministic : (u.system.behaviour first).Deterministic :=
  unfolds.grown.behaviour_deterministic first

theorem edge_of_arc (det : h.Deterministic) (returns : h.Returns)
    (language : h.language = (u.system.behaviour first).language) {b : Arc}
    (arc : b ∈ u.system.arcs) {m k : h.Node} (source : h.Path h.initial (trace b.source) m)
    (target : h.Path h.initial (trace b.target) k) : h.Edge m b.label k := by
  rcases unfolds.traced.closed b arc with tree | ⟨v, back, same⟩
  · rw [tree] at target
    obtain ⟨n, before, edge⟩ := target.last
    obtain rfl := det.path_unique source before
    exact edge
  -- The word from the target back to the source and along the arc can be repeated for ever.
  have loop : (u.system.behaviour first).Path b.target (v ++ [b.label]) b.target :=
    .snoc back ⟨b, arc, rfl, rfl, rfl⟩
  have follow {w : List Event} (round : (u.system.behaviour first).Path b.target w b.target) :
      ∃ l, h.Path k w l := by
    have known := (unfolds.grown.wellFormed.arc_ends b arc).2
    have word : trace b.target ++ w ∈ (u.system.behaviour first).language :=
      ⟨_, (unfolds.traced.reached _ known).append round⟩
    rw [← language] at word
    obtain ⟨l, whole⟩ := word
    obtain ⟨n, before, behind⟩ := whole.split
    obtain rfl := det.path_unique target before
    exact ⟨l, behind⟩
  obtain ⟨l, whole⟩ := follow loop
  obtain rfl := returns k _ l ⟨_, target⟩ whole fun n => follow (loop.repeat n)
  obtain ⟨n, before, edge⟩ := whole.last
  rw [same] at source
  obtain rfl := det.path_unique source (target.append before)
  exact edge

open Classical in
/-- A graph with the words of the unfolding follows it. -/
theorem exists_tracks (det : h.Deterministic) (returns : h.Returns)
    (language : h.language = (u.system.behaviour first).language) :
    ∃ image, Tracks (u.system.behaviour first) h image := by
  have words (x : State) (member : x ∈ u.system.states) :
      ∃ m, h.Path h.initial (trace x) m := by
    have word : trace x ∈ (u.system.behaviour first).language :=
      ⟨x, unfolds.traced.reached x member⟩
    rwa [← language] at word
  let image (x : State) : h.Node :=
    if member : x ∈ u.system.states then (words x member).choose else h.initial
  have leads {x : State} (member : x ∈ u.system.states) : h.Path h.initial (trace x) (image x) := by
    rw [show image x = _ from dif_pos member]
    exact (words x member).choose_spec
  have edge {b : Arc} (arc : b ∈ u.system.arcs) :
      h.Edge (image b.source) b.label (image b.target) := by
    obtain ⟨source, target⟩ := unfolds.grown.wellFormed.arc_ends b arc
    exact unfolds.edge_of_arc det returns language arc (leads source) (leads target)
  refine ⟨image, ?_, ?_, ?_⟩
  · have start := leads (unfolds.grown.mem_states unfolds.rootCopy)
    rw [unfolds.traced.start] at start
    exact start.eq_of_nil.symm
  · rintro _ _ _ _ ⟨b, arc, rfl, rfl, rfl⟩
    exact edge arc
  · intro x e l reached step
    have member := unfolds.mem_states reached
    have word : trace x ++ [e] ∈ h.language := ⟨l, .snoc (leads member) step⟩
    rw [language] at word
    obtain ⟨y, way⟩ := word
    obtain ⟨z, before, b, arc, rfl, rfl, rfl⟩ := way.last
    obtain rfl := unfolds.deterministic.path_unique before (unfolds.traced.reached x member)
    exact ⟨b.target, ⟨b, arc, rfl, rfl, rfl⟩, det _ _ _ _ (edge arc) step⟩

theorem located_iff (wf : ts.WellFormed) {e : Event} {l : Location} :
    Located u.system.arcs e l ↔ ∃ a ∈ ts.arcs, (ts.behaviour root).Reaches a.source ∧
      a.label = e ∧ a.location = some l := by
  constructor
  · rintro ⟨b, arc, rfl, place⟩
    obtain ⟨a, member, copy⟩ := unfolds.grown.arcs b arc
    have made := unfolds.traced.reached b.source (unfolds.grown.wellFormed.arc_ends b arc).1
    have reached := (unfolds.tracks wf).reaches_image ⟨_, made⟩
    rw [unfolds.originalOf_eq copy.source] at reached
    exact ⟨a, member, reached, copy.label.symm, copy.location.symm.trans place⟩
  · rintro ⟨a, arc, reached, rfl, place⟩
    obtain ⟨b, made, label, location⟩ := unfolds.exists_copied wf arc reached
    exact ⟨b, made, label, location.trans place⟩

theorem locations_eq_ok (wf : ts.WellFormed)
    (reachable : ∀ s ∈ ts.states, (ts.behaviour root).Reaches s) {f g : Frame} {ls : Locations}
    (system : f.graph = ts) (unfolded : g.graph = u.system) (located : f.locations = .ok ls) :
    g.locations = .ok ls := by
  refine locations_congr ?_ (fun e l => ?_) located
  · rw [Frame.events, Frame.events, system, unfolded, unfolds.grown.alphabet]
  · rw [system, unfolded, unfolds.located_iff wf]
    constructor
    · rintro ⟨a, arc, label, place⟩
      exact ⟨a, arc, reachable a.source (wf.arc_ends a arc).1, label, place⟩
    · rintro ⟨a, arc, _, label, place⟩
      exact ⟨a, arc, label, place⟩

end Unfolding.Unfolds

end NetSynthesis
