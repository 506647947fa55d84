import NetSynthesis.Proofs.ListedRegions
import NetSynthesis.Proofs.SynthesizedNet

/-! The part of a system that can be reached. Searches from the initial states of two systems that
agree there find the same states by the same arcs, so that the frames of the systems have the same
tables, chords and problems, whatever else the systems have. -/
namespace NetSynthesis

/-- Two systems that differ only in states that cannot be reached and the arcs that leave them. -/
structure TransitionSystem.SameReachable (ts ts' : TransitionSystem) : Prop where
  name : ts'.name = ts.name
  initial : ts'.initial = ts.initial
  alphabet : ts'.alphabet = ts.alphabet
  /-- The reachable states are the same, in the same order of creation. -/
  states : ts'.states.filter (· ∈ ts'.reachable) = ts.states.filter (· ∈ ts.reachable)
  outgoing : ∀ s ∈ ts.reachable, ts'.outgoing s = ts.outgoing s

namespace SpanningTree

variable {t t' : SpanningTree}

theorem climb_congr (sweep : t'.sweep = t.sweep) (direction : t'.direction = t.direction)
    (n : Nat) (s : State) : t'.climb n s = t.climb n s := by
  induction n generalizing s with
  | zero => rfl
  | succ n ih => simp only [climb, predecessorEdge?, sweep, direction, ih]

theorem pathEdges_congr (sweep : t'.sweep = t.sweep) (direction : t'.direction = t.direction)
    (s : State) : t'.pathEdges s = t.pathEdges s := by
  rw [pathEdges, pathEdges, climb_congr sweep direction, sweep]

end SpanningTree

namespace Frame

variable {f g : Frame}

/-- Two frames with the same events whose searches have found the same. -/
structure Alike (f g : Frame) : Prop where
  alphabet : g.graph.alphabet = f.graph.alphabet
  table : g.table = f.table
  chords : g.tree.chords = f.tree.chords
  outgoing : ∀ s, f.isReachable s = true → g.graph.outgoing s = f.graph.outgoing s
  enabling : ∀ e s, s ∈ g.enabling e ↔ s ∈ f.enabling e

/-- Where the same states have been found in the same way, vectors are the same. -/
theorem table_congr (alphabet : g.graph.alphabet = f.graph.alphabet)
    (sweep : g.tree.sweep = f.tree.sweep) (states : g.tree.reachable = f.tree.reachable) :
    g.table = f.table := by
  have direction : g.tree.direction = f.tree.direction := g.forward.trans f.forward.symm
  have alphabet : g.tree.graph.alphabet = f.tree.graph.alphabet := alphabet
  rw [g.table_eq, f.table_eq, parikhTable, parikhTable, states, alphabet]
  exact List.map_congr_left fun s _ => by rw [SpanningTree.pathEdges_congr sweep direction]

theorem sweep_eq (f : Frame) : f.tree.sweep = Sweep.all f.graph .forward f.tree.start := by
  rw [f.tree.sweep_eq, f.forward, graph]

theorem tree_reachable_eq (start : f.tree.start = f.graph.initial) :
    f.tree.reachable = f.graph.states.filter (· ∈ f.graph.reachable) := by
  refine List.filter_congr fun s _ => ?_
  rw [TransitionSystem.reachable_eq, ← start, ← f.sweep_eq, Bool.eq_iff_iff, decide_eq_true_iff]
  exact Sweep.knows_iff

theorem mem_reachable_of_isReachable (start : f.tree.start = f.graph.initial) {s : State}
    (found : f.isReachable s = true) : s ∈ f.graph.reachable := by
  rw [← mem_reachable, reachable_eq, tree_reachable_eq start] at found
  exact of_decide_eq_true (List.mem_filter.1 found).2

end Frame

namespace TransitionSystem.SameReachable

variable {ts ts' : TransitionSystem} {f g : Frame} (same : ts.SameReachable ts')
  (wf : ts.WellFormed) (wf' : ts'.WellFormed)

include same wf wf'

theorem sweep_eq : Sweep.all ts' .forward ts'.initial = Sweep.all ts .forward ts.initial := by
  rw [same.initial]
  cases initial : ts.initial with
  | none => rfl
  | some root =>
    refine Sweep.all_congr wf wf' (wf.initial_mem root initial)
      (wf'.initial_mem root (same.initial.trans initial)) fun s found => same.outgoing s ?_
    rwa [reachable_eq, initial]

theorem alike (framed : Frame.ofSystem ts = .ok f) (framed' : Frame.ofSystem ts' = .ok g) :
    f.Alike g := by
  obtain ⟨rfl, start⟩ := Synthesis.start_of_ofSystem framed
  obtain ⟨rfl, start'⟩ := Synthesis.start_of_ofSystem framed'
  have sweep : g.tree.sweep = f.tree.sweep := by
    rw [g.sweep_eq, f.sweep_eq, start, start', same.sweep_eq wf wf']
  have states : g.tree.reachable = f.tree.reachable := by
    rw [Frame.tree_reachable_eq start, Frame.tree_reachable_eq start', same.states]
  have table : g.table = f.table := Frame.table_congr same.alphabet sweep states
  have outgoing (s : State) (found : f.isReachable s = true) :
      g.graph.outgoing s = f.graph.outgoing s :=
    same.outgoing s (Frame.mem_reachable_of_isReachable start found)
  refine ⟨same.alphabet, table, ?_, outgoing, fun e s => ?_⟩
  · rw [SpanningTree.chords, SpanningTree.chords, sweep]
  · rw [Frame.mem_enabling wf, Frame.mem_enabling wf', Frame.isReachable, table,
      ← Frame.isReachable]
    exact and_congr_right fun found => by rw [outgoing s found]

end TransitionSystem.SameReachable

end NetSynthesis
