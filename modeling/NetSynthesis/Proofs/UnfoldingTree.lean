import Mathlib.Data.Set.Function
import NetSynthesis.Proofs.BreadthFirst
import NetSynthesis.Proofs.UnfoldedSystem

/-! The unfolding as a tree. Its states are the simple paths of the system, one for each, and an arc
of the system leaves every path that ends with its source: on to the longer path, or back to the
part of the path where its target has been visited. -/
namespace NetSynthesis.Unfolding

open ArcPath

/-- The states of the unfolding are the simple paths from the root, and from every path just the
arcs of the system at its end are followed. -/
structure IsPathTree (ts : TransitionSystem) (root : State) (u : Unfolding)
    (way : State → ArcPath) : Prop where
  wellFormed : u.system.WellFormed
  states : Set.BijOn way { x | x ∈ u.system.states } { p | ∃ s, ts.SimplePath root p s }
  initial : u.system.initial.map way = some []
  keys : u.copyOf.map (·.1) = u.system.states
  original : ∀ x ∈ u.system.states, ∃ s, u.copyOf.lookup x = some s ∧ ts.SimplePath root (way x) s
  outgoing : ∀ x ∈ u.system.states, ∀ a ∈ ts.arcs, ts.SimplePath root (way x) a.source →
    ∃ y ∈ u.system.states, way y = follow root (way x) a ∧
      (u.system.outgoing x).filter (·.label == a.label) = [⟨x, a.label, y, a.location⟩]
  arcs : ∀ b ∈ u.system.arcs, ∃ a ∈ ts.arcs,
    ts.SimplePath root (way b.source) a.source ∧ b.label = a.label

theorem IsCopy.original_unique {ts : TransitionSystem} {u : Unfolding} {a b c : Arc}
    (grown : Grown ts u) (copy : IsCopy u.copyOf b a) (other : IsCopy u.copyOf b c) : a = c := by
  obtain ⟨s, e, t, l⟩ := a
  obtain ⟨s', e', t', l'⟩ := c
  simp only [Arc.mk.injEq]
  exact ⟨grown.unique copy.source other.source, copy.label.symm.trans other.label,
    grown.unique copy.target other.target, copy.location.symm.trans other.location⟩

namespace Unfolds

variable {ts : TransitionSystem} {root first s x : State} {u : Unfolding} {way : State → ArcPath}
  {p : ArcPath} {a : Arc} (unfolds : Unfolds ts root u first (traceOf way))

include unfolds

theorem injOn_way : Set.InjOn way { x | x ∈ u.system.states } := by
  intro x known y other same
  have reached := unfolds.traced.reached x known
  rw [traceOf, same] at reached
  exact (unfolds.grown.behaviour_deterministic first).path_unique reached
    (unfolds.traced.reached y other)

variable (charted : Charted ts root first u [] way) (wf : ts.WellFormed)

include charted wf

theorem exists_followed (copied : (x, a.source) ∈ u.copyOf) (arc : a ∈ ts.arcs) :
    ∃ y, (y, a.target) ∈ u.copyOf ∧ ⟨x, a.label, y, a.location⟩ ∈ u.system.arcs ∧
      way y = follow root (way x) a := by
  obtain ⟨b, made, rfl, copy⟩ := unfolds.complete _ copied a (wf.mem_outgoing.2 ⟨arc, rfl⟩)
  obtain ⟨c, _, other, leads⟩ := charted.arcs b made
  obtain rfl := copy.original_unique unfolds.grown other
  refine ⟨b.target, copy.target, ?_, leads⟩
  rwa [← copy.label, ← copy.location]

/-- Every simple path is the way of a copy of the state that it ends with. -/
theorem exists_copy (path : ts.SimplePath root p s) : ∃ x, (x, s) ∈ u.copyOf ∧ way x = p := by
  induction path with
  | nil => exact ⟨first, unfolds.rootCopy, charted.start⟩
  | @snoc p a _ arc off ih =>
    obtain ⟨x, copied, rfl⟩ := ih
    obtain ⟨y, copy, _, leads⟩ := unfolds.exists_followed charted wf copied arc
    rw [follow, if_neg off] at leads
    exact ⟨y, copy, leads⟩

theorem isPathTree : IsPathTree ts root u way := by
  have grown := unfolds.grown
  have simple {x : State} (known : x ∈ u.system.states) :
      (x, u.originalOf x) ∈ u.copyOf ∧ ts.SimplePath root (way x) (u.originalOf x) :=
    ⟨unfolds.mem_copyOf known, charted.simple _ (unfolds.mem_copyOf known)⟩
  refine ⟨grown.wellFormed, ⟨?_, unfolds.injOn_way, ?_⟩, ?_, grown.states, ?_, ?_, ?_⟩
  · intro x known
    exact ⟨_, (simple known).2⟩
  · rintro p ⟨s, path⟩
    obtain ⟨x, copy, same⟩ := unfolds.exists_copy charted wf path
    exact ⟨x, grown.mem_states copy, same⟩
  · rw [unfolds.initial, Option.map_some, charted.start]
  · intro x known
    exact ⟨_, unfolds.lookup_copyOf (simple known).1, (simple known).2⟩
  · intro x known a arc path
    have copied := (simple known).1
    rw [(simple known).2.end_unique path] at copied
    obtain ⟨y, copy, made, leads⟩ := unfolds.exists_followed charted wf copied arc
    exact ⟨y, grown.mem_states copy, leads,
      grown.wellFormed.outgoing_filter_label unfolds.isDeterministic made⟩
  · intro b made
    obtain ⟨a, arc, copy, _⟩ := charted.arcs b made
    exact ⟨a, arc, charted.simple _ copy.source, copy.label⟩

end Unfolds

/-- A deterministic system is unfolded to the tree of its simple paths. The tree is deterministic,
all its states can be reached, and it has the alphabet and the words of the system. -/
theorem exists_pathTree {ts : TransitionSystem} {root : State} (wf : ts.WellFormed)
    (det : ts.isDeterministic = true) (initial : ts.initial = some root) :
    ∃ u first way, unfolding ts = .ok u ∧ u.system.initial = some first ∧
      IsPathTree ts root u way ∧ u.system.isDeterministic = true ∧
      u.system.isTotallyReachable = true ∧ u.system.alphabet = ts.alphabet ∧
      (u.system.behaviour first).language = (ts.behaviour root).language := by
  obtain ⟨u, first, way, unfolded, unfolds, charted⟩ := exists_charted wf det initial
  have reached : u.system.isTotallyReachable = true :=
    (TransitionSystem.isTotallyReachable_iff unfolds.grown.wellFormed unfolds.initial).2
      fun x known => ⟨_, unfolds.traced.reached x known⟩
  exact ⟨u, first, way, unfolded, unfolds.initial, unfolds.isPathTree charted wf,
    unfolds.isDeterministic, reached, unfolds.grown.alphabet, (unfolds.tracks wf).language_eq.symm⟩

/-- A system with a loop at a state, a way round and two ways to one state. -/
def detour : TransitionSystem :=
  let near : Arc := ⟨"s", "near", "t", none⟩
  let far : Arc := ⟨"s", "far", "m", none⟩
  let on : Arc := ⟨"m", "on", "t", none⟩
  let stay : Arc := ⟨"t", "stay", "t", none⟩
  let back : Arc := ⟨"t", "back", "s", some "x"⟩
  { initial := some "s"
    incidences := [⟨"s", [near, far], [back]⟩, ⟨"t", [stay, back], [near, on, stay]⟩,
      ⟨"m", [on], [far]⟩]
    arcs := [near, far, on, stay, back]
    alphabet := ["back", "far", "near", "on", "stay"] }

theorem exists_pathTree_detour : detour.WellFormed ∧ detour.isDeterministic = true ∧
    detour.initial = some "s" ∧
    ∃ u first way, unfolding detour = .ok u ∧ u.system.initial = some first ∧
      IsPathTree detour "s" u way ∧ u.system.isDeterministic = true ∧
      u.system.isTotallyReachable = true ∧ u.system.alphabet = detour.alphabet ∧
      (u.system.behaviour first).language = (detour.behaviour "s").language :=
  have wf : detour.WellFormed := by constructor <;> decide
  ⟨wf, by decide, rfl, exists_pathTree wf (by decide) rfl⟩

example : (unfolding detour).toOption.map (·.copyOf) =
    some [("s0", "s"), ("s1", "t"), ("s2", "m"), ("s3", "t")] := by decide +kernel

end NetSynthesis.Unfolding
