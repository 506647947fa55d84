import NetSynthesis.Proofs.RegionBasis

/-! How many initial tokens make a region valid. Whether arcs change the tokens by the effects of
their events depends on the effect alone and can be seen on the tree paths. If they do, the normal
marking is the least number of initial tokens, and any greater number will do as well. -/
namespace NetSynthesis

namespace Frame

variable {f : Frame}

/-- The sums of the entries on the tree paths to the ends of an arc differ by the entry of its
event, for all arcs that leave reachable states. -/
def SumsAlongArcs (f : Frame) (w : IntVector) : Prop :=
  ∀ a ∈ f.graph.arcs, f.isReachable a.source = true →
    f.gain w (f.pathWord a.target) = f.gain w (f.pathWord a.source) + f.entry w a.label

theorem sumsAlongArcs_iff (wf : f.graph.WellFormed) (r : Region f.size) :
    f.SumsAlongArcs r.effect ↔ ∀ s, f.isReachable s = true → ∀ a ∈ f.graph.outgoing s,
      r.effect.dot (f.vector a.target) =
        r.effect.dot (f.vector s) + (f.weightOf r a.label).effect := by
  have sums {a : Arc} (arc : a ∈ f.graph.arcs) (source : f.isReachable a.source = true) :
      r.effect.dot (f.vector a.target) = f.gain r.effect (f.pathWord a.target) ∧
        r.effect.dot (f.vector a.source) = f.gain r.effect (f.pathWord a.source) ∧
        (f.weightOf r a.label).effect = f.entry r.effect a.label := by
    obtain ⟨root, rooted⟩ := exists_rooted wf source
    have target := rooted.isReachable_target source arc
    exact ⟨dot_vector rooted _ target, dot_vector rooted _ source, (entry_effect r a.label).symm⟩
  constructor
  · intro along s found a edge
    obtain ⟨arc, rfl⟩ := wf.mem_outgoing.1 edge
    obtain ⟨target, source, effect⟩ := sums arc found
    rw [target, source, effect]
    exact along a arc found
  · intro steps a arc found
    obtain ⟨target, source, effect⟩ := sums arc found
    rw [← target, ← source, ← effect]
    exact steps a.source found a (wf.mem_outgoing.2 ⟨arc, rfl⟩)

/-- A region is valid with a number of initial tokens just if that is no less than the normal
marking and the effect adds up along the arcs. -/
theorem isValid_withInitial_iff (wf : f.graph.WellFormed) (r : Region f.size) (m : Int) :
    f.isValid (r.withInitial m) = true ↔ f.normalMarking r ≤ m ∧ f.SumsAlongArcs r.effect := by
  rw [isValid_iff, valid_withInitial_iff, sumsAlongArcs_iff wf]

end Frame

namespace Synthesis

/-- Each event takes more than the other leaves with one token. -/
def exchange : Region toggleFrame.size := ⟨[⟨1, 2⟩, ⟨2, 1⟩], 2, rfl⟩

theorem isValid_withInitial_exchange : toggleFrame.graph.WellFormed ∧
    ∀ m : Int, toggleFrame.isValid (exchange.withInitial m) = true ↔ 2 ≤ m := by
  have wf : toggleFrame.graph.WellFormed := toggle_wellFormed
  refine ⟨wf, fun m => ?_⟩
  have along : toggleFrame.SumsAlongArcs exchange.effect := by
    unfold Frame.SumsAlongArcs
    decide
  have least : toggleFrame.normalMarking exchange = 2 := by decide
  rw [Frame.isValid_withInitial_iff wf, least, and_iff_left along]

/-- If both events put a token, no number of initial tokens will do. -/
example :
    toggleFrame.isValid (toggleFrame.withNormalMarking ⟨[⟨0, 1⟩, ⟨0, 1⟩], 0, rfl⟩) = false := by
  decide

end Synthesis

end NetSynthesis
