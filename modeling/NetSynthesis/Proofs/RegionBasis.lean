import NetSynthesis.Proofs.MemoizedVectors
import NetSynthesis.Proofs.SynthesizedNet

/-! What the region basis spans. An effect is a combination of the basis just if the tree paths to
the ends of every chord agree about it, and then all paths to a state agree: every arc changes a
number of tokens by the effect of its event. The converse holds since chords and the tree paths to
their ends are paths themselves. -/
namespace NetSynthesis.Frame

open IntVector LabelledGraph

variable {f : Frame} {root s : State} {w : IntVector} {memo : ParikhMemo} {word : List Event}

/-- The entry of an effect for an event, zero if the event is unknown. -/
def entry (f : Frame) (w : IntVector) (e : Event) : Int :=
  ((f.eventIndex? e).map fun i => w[i]?.getD 0).getD 0

theorem entry_effect (r : Region f.size) (e : Event) :
    f.entry r.effect e = (f.weightOf r e).effect := by
  rw [entry, weightOf]
  cases f.eventIndex? e with
  | none => rfl
  | some i => exact r.getD_effect i

/-- The sum of the entries for the events of a word. -/
def gain (f : Frame) (w : IntVector) (word : List Event) : Int := (word.map (f.entry w)).sum

/-- The events on the tree path to a state. -/
def pathWord (f : Frame) (s : State) : List Event := (f.tree.pathEdges s).map (·.label)

/-- All paths from the root to one state have the same sum. -/
def PathIndependent (f : Frame) (w : IntVector) : Prop :=
  ∀ root ∈ f.tree.start, ∀ s v v', (f.graph.behaviour root).Path root v s →
    (f.graph.behaviour root).Path root v' s → f.gain w v = f.gain w v'

/-- Numbers of the states that change along the arcs between reachable states by the entries for
their events. -/
def Potential (f : Frame) (w : IntVector) (p : State → Int) : Prop :=
  ∀ root ∈ f.tree.start, ∀ s e t, (f.graph.behaviour root).Reaches s →
    (f.graph.behaviour root).Reaches t → (f.graph.behaviour root).Edge s e t →
    p t = p s + f.entry w e

theorem gain_snoc (f : Frame) (w : IntVector) (word : List Event) (e : Event) :
    f.gain w (word ++ [e]) = f.gain w word + f.entry w e := by
  simp [gain]

section Rooted

variable (rooted : f.Rooted root)

include rooted

theorem dot_single_eq (w : IntVector) (e : Event) :
    dot w (single f.graph.alphabet e) = f.entry w e :=
  IntVector.dot_single rooted.wellFormed.alphabet_nodup w e

theorem pathWord_root : f.pathWord root = [] := by
  rw [pathWord, SpanningTree.pathEdges_root rooted.wellFormed rooted.start, List.map_nil]

theorem pathWord_tree {a : Arc} (tree : f.tree.predecessorEdge? a.target = some a) :
    f.pathWord a.target = f.pathWord a.source ++ [a.label] := by
  have path := SpanningTree.pathEdges_step rooted.wellFormed rooted.start tree
  rw [f.forward] at path
  rw [pathWord, show f.tree.pathEdges a.target = f.tree.pathEdges a.source ++ [a] from path,
    List.map_append]
  rfl

theorem path_pathWord (found : f.isReachable s = true) :
    (f.graph.behaviour root).Path root (f.pathWord s) s := by
  refine rooted.induction (P := fun s => (f.graph.behaviour root).Path root (f.pathWord s) s)
    ?_ ?_ found
  · rw [pathWord_root rooted]
    exact .nil
  · intro a arc _ tree path
    rw [pathWord_tree rooted tree]
    exact .snoc path ⟨a, arc, rfl, rfl, rfl⟩

theorem dot_vector (w : IntVector) (found : f.isReachable s = true) :
    dot w (f.vector s) = f.gain w (f.pathWord s) := by
  refine rooted.induction (P := fun s => dot w (f.vector s) = f.gain w (f.pathWord s)) ?_ ?_ found
  · rw [rooted.vector_root, dot_zero, pathWord_root rooted]
    rfl
  · intro a arc source tree sum
    rw [rooted.vector_tree source arc tree, dot_add, sum, dot_single_eq rooted,
      pathWord_tree rooted tree, gain_snoc]

theorem Potential.gain {p : State → Int} (potential : f.Potential w p)
    {s : (f.graph.behaviour root).Node} (path : (f.graph.behaviour root).Path root word s) :
    p s = p root + f.gain w word := by
  induction path with
  | nil => simp [Frame.gain]
  | snoc before edge ih =>
    have reached := Reaches.step ⟨_, before⟩ edge
    rw [gain_snoc, potential root rooted.start _ _ _ ⟨_, before⟩ reached edge, ih]
    exact Int.add_assoc ..

theorem exists_potential (length : w.length = f.size) (consistent : f.Consistent w) :
    ∃ p, f.Potential w p := by
  have effect : (Region.ofEffect f.size w).effect = w := Region.effect_ofEffect length 0
  refine ⟨f.tokens (Region.ofEffect f.size w), ?_⟩
  rintro root' same s e t reached _ ⟨a, arc, rfl, rfl, rfl⟩
  obtain rfl : root = root' := Option.some.inj (rooted.start.symm.trans same)
  have source := rooted.isReachable_iff_reaches.2 reached
  have step := rooted.tokens_step (effect.symm ▸ consistent) source arc
  rw [step, ← entry_effect, effect]

/-- A chord and the tree path to its source are a path to its target, as is the tree path there. -/
theorem consistent_of_pathIndependent (independent : f.PathIndependent w) : f.Consistent w := by
  intro a chord
  obtain ⟨arc, source, target⟩ := rooted.chord_spec chord
  have detour := Path.snoc (path_pathWord rooted source) ⟨a, arc, rfl, rfl, rfl⟩
  have direct := path_pathWord rooted target
  have same := independent root rooted.start a.target _ _ detour direct
  rw [edgeVector, dot_sub, dot_add, events, dot_single_eq rooted, dot_vector rooted w source,
    dot_vector rooted w target, ← same, gain_snoc]
  exact Int.sub_self _

end Rooted

theorem pathIndependent_of_potential (wf : f.graph.WellFormed) {p : State → Int}
    (potential : f.Potential w p) : f.PathIndependent w := by
  intro root start s v v' path path'
  have rooted : f.Rooted root := ⟨wf, start⟩
  have first := potential.gain rooted path
  have second := potential.gain rooted path'
  omega

/-- Consistency, independence of the path and the existence of a potential are the same. -/
theorem consistent_iff (wf : f.graph.WellFormed) (length : w.length = f.size) :
    (f.Consistent w ↔ f.PathIndependent w) ∧ (f.PathIndependent w ↔ ∃ p, f.Potential w p) := by
  cases start : f.tree.start with
  | none =>
    -- Without a root there are neither chords nor paths.
    have consistent : f.Consistent w := by
      intro a chord
      simp [SpanningTree.chords, f.tree.sweep_eq, start, Sweep.all] at chord
    have independent : f.PathIndependent w := by simp [PathIndependent, start]
    have potential : f.Potential w fun _ => 0 := by simp [Potential, start]
    exact ⟨iff_of_true consistent independent, iff_of_true independent ⟨_, potential⟩⟩
  | some root =>
    have rooted : f.Rooted root := ⟨wf, start⟩
    have first (consistent : f.Consistent w) := exists_potential rooted length consistent
    have second (given : ∃ p, f.Potential w p) : f.PathIndependent w := by
      obtain ⟨_, potential⟩ := given
      exact pathIndependent_of_potential wf potential
    have third (independent : f.PathIndependent w) :=
      consistent_of_pathIndependent rooted independent
    exact ⟨⟨second ∘ first, third⟩, ⟨first ∘ third, second⟩⟩

theorem effects_basis (f : Frame) :
    f.basis.map (·.effect) = KernelBasis.of f.size (f.tree.chords.map f.edgeVector) := by
  rw [basis, List.map_map]
  refine (List.map_congr_left fun v member => ?_).trans (List.map_id _)
  exact Region.effect_ofEffect (KernelBasis.of_solves member).1 0

/-- The effects of the basis are a basis of the consistent effects. -/
theorem isBasis_basis (f : Frame) :
    IsBasis f.size f.Consistent (f.basis.map (·.effect)) := by
  rw [effects_basis]
  refine (KernelBasis.isBasis_of f.size _).congr fun w _ => ?_
  rw [List.forall_mem_map]
  refine forall₂_congr fun a _ => ?_
  rw [dot_comm]

theorem Consistent.exists_basis_dot {v : IntVector} (consistent : f.Consistent w)
    (length : w.length = f.size) (counts : dot w v ≠ 0) : ∃ b ∈ f.basis, dot b.effect v ≠ 0 := by
  obtain ⟨ks, _, rfl⟩ := ((isBasis_basis f).spans w length).1 consistent
  by_contra none
  have zeros : ∀ x ∈ (f.basis.map (·.effect)).map (dot v), x = 0 := by
    simp only [List.map_map, List.forall_mem_map, Function.comp_apply]
    intro b basis
    by_contra differ
    exact none ⟨b, basis, dot_comm v b.effect ▸ differ⟩
  rw [dot_comm, dot_combination, dot_of_zeros _ _ zeros] at counts
  exact counts rfl

/-- The region basis is computed without a failure, and just the effects that do not depend on the
path are combinations of it, each in one way. -/
theorem basis_spans (wf : f.graph.WellFormed) (remembers : f.Remembers memo) :
    ∃ basis memo', f.basis? memo = .ok (basis, memo') ∧ ∀ w : IntVector, w.length = f.size →
      ((∃! ks, ks.length = basis.length ∧
        combination f.size ks (basis.map (·.effect)) = w) ↔ f.PathIndependent w) ∧
      (f.PathIndependent w ↔ ∃ p, f.Potential w p) := by
  obtain ⟨memo', answer, _⟩ := basis?_eq wf remembers
  refine ⟨f.basis, memo', answer, fun w length => ?_⟩
  obtain ⟨first, second⟩ := consistent_iff wf length
  have unique := (isBasis_basis f).existsUnique_iff length
  rw [List.length_map] at unique
  exact ⟨unique.symm.trans first, second⟩

theorem basis_spans_toggle : Synthesis.toggleFrame.Remembers [] ∧
    ∃ basis memo', Synthesis.toggleFrame.basis? = .ok (basis, memo') ∧
      ∀ w : IntVector, w.length = Synthesis.toggleFrame.size →
        ((∃! ks, ks.length = basis.length ∧
          combination Synthesis.toggleFrame.size ks (basis.map (·.effect)) = w) ↔
            Synthesis.toggleFrame.PathIndependent w) ∧
        (Synthesis.toggleFrame.PathIndependent w ↔ ∃ p, Synthesis.toggleFrame.Potential w p) := by
  have remembers : Synthesis.toggleFrame.Remembers [] := by simp [Remembers]
  exact ⟨remembers, basis_spans Synthesis.toggle_wellFormed remembers⟩

example : (Synthesis.toggleFrame.basis?.toOption.map fun b => b.1.map (·.effect)) =
    some [[1, -1]] := by decide

end NetSynthesis.Frame
