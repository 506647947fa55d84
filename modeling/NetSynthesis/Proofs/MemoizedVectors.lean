import NetSynthesis.Proofs.ExceptSteps
import NetSynthesis.Proofs.KernelSolutions
import NetSynthesis.Proofs.SearchedLists
import NetSynthesis.Proofs.ShortestPaths
import NetSynthesis.Proofs.ValidRegions

/-! Vectors that are computed when they are asked for. What is remembered are vectors of tree paths,
so that an answer does not depend on the questions before, and the basis that is computed with them
is the basis of the frame. -/
namespace NetSynthesis.Frame

open IntVector

variable {f : Frame} {root s : State} {memo : ParikhMemo} {a : Arc}

/-- Everything remembered is the vector of a reachable state. -/
def Remembers (f : Frame) (memo : ParikhMemo) : Prop :=
  ∀ p ∈ memo, f.isReachable p.1 = true ∧ p.2 = f.vector p.1

theorem Remembers.append (remembers : f.Remembers memo) (found : f.isReachable s = true) :
    f.Remembers (memo ++ [(s, f.vector s)]) := by
  intro p member
  rcases List.mem_append.1 member with old | new
  · exact remembers p old
  · rw [List.mem_singleton.1 new]
    exact ⟨found, rfl⟩

theorem Remembers.lookup (remembers : f.Remembers memo) {v : IntVector}
    (known : memo.lookup s = some v) : v = f.vector s :=
  (remembers (s, v) (mem_of_lookup known)).2

theorem Rooted.vector_root (rooted : f.Rooted root) : f.vector root = IntVector.zero f.size := by
  rw [vector_eq rooted.isReachable_root,
    SpanningTree.pathEdges_root rooted.wellFormed rooted.start]
  simp [count, IntVector.zero]

section Queries

variable (rooted : f.Rooted root) (remembers : f.Remembers memo)

include rooted remembers

/-- The climb ends at the root at the latest, which is as far above as the state was found late. -/
theorem climb_eq {i n : Nat} (at_i : f.tree.sweep.names[i]? = some s) (enough : i ≤ n) :
    ∃ memo', memo.climb f.tree n s = .ok (f.vector s, memo') ∧ f.Remembers memo' := by
  have found : f.isReachable s = true :=
    rooted.isReachable_iff.2 (Sweep.knows_iff.2 (List.mem_of_getElem? at_i))
  induction i using Nat.strong_induction_on generalizing s n with
  | _ i ih =>
    unfold ParikhMemo.climb
    cases known : memo.lookup s with
    | some v =>
      obtain rfl := remembers.lookup known
      exact ⟨memo, rfl, remembers⟩
    | none =>
      rcases SpanningTree.position_cases rooted.wellFormed rooted.start at_i with
        rfl | ⟨a, tree, target, edge, j, before, near⟩
      · refine ⟨memo ++ [(s, f.vector s)], ?_, remembers.append found⟩
        rw [rooted.vector_root]
        exact if_pos rooted.start
      · rw [f.forward] at target edge near
        obtain rfl : a.target = s := target
        have below : f.tree.start ≠ some a.target := by
          intro top
          have none := SpanningTree.predecessorEdge?_root rooted.wellFormed top
          simp [none] at tree
        have arc : a ∈ f.graph.arcs := (rooted.wellFormed.mem_outgoing.1 edge).1
        have source : f.isReachable a.source = true :=
          rooted.isReachable_iff.2 (Sweep.knows_iff.2 (List.mem_of_getElem? near))
        obtain ⟨n, rfl⟩ : ∃ m, n = m + 1 := ⟨n - 1, by omega⟩
        obtain ⟨memo', climbed, kept⟩ := ih j before near (by omega : j ≤ n) source
        refine ⟨memo' ++ [(a.target, f.vector a.target)], ?_, kept.append found⟩
        rw [if_neg below, tree, rooted.vector_tree source arc tree]
        exact bind_eq_ok.2 ⟨_, climbed, rfl⟩

theorem reaching_eq (found : f.isReachable s = true) :
    ∃ memo', memo.reaching f.tree s = .ok (f.vector s, memo') ∧ f.Remembers memo' := by
  obtain ⟨i, at_i⟩ := List.mem_iff_getElem?.1
    (Sweep.knows_iff.1 (rooted.isReachable_iff.1 found))
  have bound := (List.getElem?_eq_some_iff.1 at_i).1
  exact climb_eq rooted remembers at_i bound.le

/-- Arcs between reachable states have the vectors of the frame. -/
theorem edge_eq (label : a.label ∈ f.graph.alphabet) (source : f.isReachable a.source = true)
    (target : f.isReachable a.target = true) :
    ∃ memo', memo.edge f.tree a = .ok (f.edgeVector a, memo') ∧ f.Remembers memo' := by
  obtain ⟨memo', first, kept⟩ := reaching_eq rooted remembers source
  obtain ⟨memo'', second, kept⟩ := reaching_eq rooted kept target
  have known : f.tree.graph.alphabet.contains a.label = true := List.contains_iff_mem.2 label
  refine ⟨memo'', ?_, kept⟩
  rw [ParikhMemo.edge, rooted.isReachable_iff.1 source, rooted.isReachable_iff.1 target]
  refine bind_eq_ok.2 ⟨_, first, bind_eq_ok.2 ⟨_, second, ?_⟩⟩
  exact if_pos known

end Queries

/-! ### Questions in turn -/

section Answers

variable (wf : f.graph.WellFormed) (remembers : f.Remembers memo)

include wf remembers

theorem reaching_eq_error (lost : f.tree.isReachable s = false) :
    memo.reaching f.tree s = .error (.unreachable s) := by
  have off : f.isReachable s = false := by
    rw [← Bool.not_eq_true, isReachable_iff_tree wf, lost]
    exact Bool.false_ne_true
  have unknown : memo.lookup s = none := by
    rw [List.lookup_eq_none_iff]
    intro p member
    have found := (remembers p member).1
    refine bne_iff_ne.2 fun same => ?_
    rw [← same, off] at found
    exact Bool.false_ne_true found
  have below : f.tree.start ≠ some s := by
    intro top
    have found := SpanningTree.isReachable_root wf top
    simp [lost] at found
  have treeless : f.tree.predecessorEdge? s = none := by
    cases tree : f.tree.predecessorEdge? s with
    | none => rfl
    | some a =>
      have found := SpanningTree.isReachable_of_predecessorEdge? tree
      simp [lost] at found
  unfold ParikhMemo.reaching ParikhMemo.climb
  rw [unknown, treeless]
  simp [below]

theorem remembers_remember (s : State) : f.Remembers (memo.remember f.tree s) := by
  rw [ParikhMemo.remember]
  cases found : f.tree.isReachable s with
  | false => rwa [reaching_eq_error wf remembers found]
  | true =>
    obtain ⟨root, start⟩ := SpanningTree.exists_start found
    obtain ⟨memo', answer, kept⟩ :=
      reaching_eq ⟨wf, start⟩ remembers ((isReachable_iff_tree wf).2 found)
    rwa [answer]

theorem remembers_after (q : ParikhQuery) : f.Remembers (memo.after f.tree q) := by
  cases q with
  | state s => exact remembers_remember wf remembers s
  | edge a =>
    rw [ParikhMemo.after]
    split
    · exact remembers_remember wf (remembers_remember wf remembers a.source) a.target
    · exact remembers

theorem remembers_afterAll (queries : List ParikhQuery) :
    f.Remembers (memo.afterAll f.tree queries) := by
  induction queries generalizing memo with
  | nil => exact remembers
  | cons q queries ih => exact ih (remembers_after wf remembers q)

end Answers

/-- Whatever has been asked before, also what has failed, the vector of a reachable state counts the
tree edges on the path to it, and that of an arc between reachable states is the vector of its
source and its label, less that of its target, which is zero for tree edges. -/
theorem ask_afterAll (wf : f.graph.WellFormed) (queries : List ParikhQuery) :
    let memo := ParikhMemo.afterAll f.tree [] queries
    let vector s := count f.events (f.tree.pathEdges s)
    (∀ s, f.tree.isReachable s = true → memo.ask f.tree (.state s) = .ok (vector s)) ∧
      (∀ s, f.tree.isReachable s = false →
        memo.ask f.tree (.state s) = .error (.unreachable s)) ∧
      (∀ a, f.tree.isReachable a.source = true → f.tree.isReachable a.target = true →
        a.label ∈ f.events → memo.ask f.tree (.edge a) =
          .ok (((vector a.source).add (single f.events a.label)).sub (vector a.target))) ∧
      (∀ a ∈ f.tree.treeEdges, memo.ask f.tree (.edge a) = .ok (zero f.size)) ∧
      ∀ a, f.tree.isReachable a.source = false ∨ f.tree.isReachable a.target = false →
        memo.ask f.tree (.edge a) = .ok [] := by
  intro memo vector
  have remembers : f.Remembers memo :=
    remembers_afterAll wf (fun _ none => absurd none List.not_mem_nil) queries
  have vector_of {s : State} (found : f.tree.isReachable s = true) : f.vector s = vector s :=
    vector_eq ((isReachable_iff_tree wf).2 found)
  have edge (a : Arc) (source : f.tree.isReachable a.source = true)
      (target : f.tree.isReachable a.target = true) (label : a.label ∈ f.events) :
      memo.ask f.tree (.edge a) = .ok (f.edgeVector a) := by
    obtain ⟨root, start⟩ := SpanningTree.exists_start source
    obtain ⟨_, answer, _⟩ := edge_eq ⟨wf, start⟩ remembers label
      ((isReachable_iff_tree wf).2 source) ((isReachable_iff_tree wf).2 target)
    rw [ParikhMemo.ask, answer]
    rfl
  refine ⟨fun s found => ?_, fun s lost => ?_, fun a source target label => ?_, fun a tree => ?_,
    fun a lost => ?_⟩
  · obtain ⟨root, start⟩ := SpanningTree.exists_start found
    obtain ⟨_, answer, _⟩ :=
      reaching_eq ⟨wf, start⟩ remembers ((isReachable_iff_tree wf).2 found)
    rw [ParikhMemo.ask, answer, ← vector_of found]
    rfl
  · rw [ParikhMemo.ask, reaching_eq_error wf remembers lost]
    rfl
  · rw [edge a source target label, edgeVector, vector_of source, vector_of target]
  · obtain ⟨p, member, _⟩ := List.mem_filterMap.1 tree
    obtain ⟨root, start⟩ : ∃ root, f.tree.start = some root :=
      SpanningTree.exists_start (List.any_eq_true.2 ⟨p, member, beq_self_eq_true p.1⟩)
    have rooted : f.Rooted root := ⟨wf, start⟩
    obtain ⟨arc, source, target⟩ := SpanningTree.treeEdge_spec wf start tree
    have last := (SpanningTree.mem_treeEdges wf start).1 tree
    rw [f.forward] at arc source target last
    have inside := (wf.mem_outgoing.1 arc).1
    have known := (isReachable_iff_tree wf).2 source
    rw [edge a source target (wf.labels_mem a inside), edgeVector, events,
      ← rooted.vector_tree known inside last, sub_self,
      length_vector (rooted.isReachable_target known inside)]
  · rw [ParikhMemo.ask, ParikhMemo.edge]
    rcases lost with source | target
    · simp [source, Except.map]
    · simp [target, Except.map]

def shortcutFrame : Frame :=
  ⟨⟨shortcut, some "s0", .forward, by decide, _, rfl⟩, rfl, _, rfl⟩

/-- The state `s3` is not reachable, and `s2` is reached in one step. -/
theorem ask_afterAll_shortcut : shortcutFrame.graph.WellFormed ∧
    let memo := ParikhMemo.afterAll shortcutFrame.tree []
      [.state "s3", .edge ⟨"s0", "b", "s2", none⟩, .edge ⟨"s3", "a", "s0", none⟩]
    memo.ask shortcutFrame.tree (.state "s2") = .ok [0, 1, 0] ∧
      memo.ask shortcutFrame.tree (.state "s3") = .error (.unreachable "s3") ∧
      memo.ask shortcutFrame.tree (.edge ⟨"s1", "a", "s2", none⟩) = .ok [2, -1, 0] ∧
      memo.ask shortcutFrame.tree (.edge ⟨"s0", "a", "s1", none⟩) = .ok [0, 0, 0] ∧
      memo.ask shortcutFrame.tree (.edge ⟨"s3", "a", "s0", none⟩) = .ok [] := by
  obtain ⟨state, lost, edge, tree, loose⟩ := ask_afterAll (f := shortcutFrame) shortcut_wellFormed
    [.state "s3", .edge ⟨"s0", "b", "s2", none⟩, .edge ⟨"s3", "a", "s0", none⟩]
  exact ⟨shortcut_wellFormed, state "s2" (by decide), lost "s3" (by decide),
    edge _ (by decide) (by decide) (by decide), tree _ (by decide), loose _ (.inl (by decide))⟩

/-! ### The basis -/

theorem foldlM_addChord (rooted : f.Rooted root) (remembers : f.Remembers memo)
    {system : EquationSystem} (size : system.size = f.size) {chords : List Arc}
    (inside : ∀ a ∈ chords, a ∈ f.graph.arcs ∧ f.isReachable a.source = true) :
    ∃ system' memo', chords.foldlM f.addChord (system, memo) = .ok (system', memo') ∧
      system'.size = f.size ∧
      system'.equations = system.equations ++ chords.map f.edgeVector ∧ f.Remembers memo' := by
  induction chords generalizing system memo with
  | nil => exact ⟨system, memo, rfl, size, by simp, remembers⟩
  | cons a chords ih =>
    obtain ⟨⟨arc, source⟩, rest⟩ := List.forall_mem_cons.1 inside
    have target := rooted.isReachable_target source arc
    obtain ⟨memo', answer, kept⟩ :=
      edge_eq rooted remembers (rooted.wellFormed.labels_mem a arc) source target
    have length : (f.edgeVector a).length = system.size := by
      rw [length_edgeVector source target, size]
    have some : (f.edgeVector a).isEmpty = false := by
      obtain ⟨i, _, bound⟩ := rooted.eventIndex?_of_arc arc
      rw [← Bool.not_eq_true, List.isEmpty_iff_length_eq_zero, length, size]
      exact Nat.ne_of_gt (Nat.zero_lt_of_lt bound)
    obtain ⟨grown, added, size', equations⟩ : ∃ grown, system.add (f.edgeVector a) = .ok grown ∧
        grown.size = f.size ∧ grown.equations = system.equations ++ [f.edgeVector a] :=
      ⟨_, dif_pos length, size, rfl⟩
    obtain ⟨system', memo'', later, last⟩ := ih kept size' rest
    refine ⟨system', memo'', ?_, ?_⟩
    · rw [List.foldlM_cons]
      refine bind_eq_ok.2 ⟨(grown, memo'), bind_eq_ok.2 ⟨_, answer, ?_⟩, later⟩
      simp [some, added, bind, Except.bind, pure, Except.pure]
    · simpa [equations] using last

/-- No question is without an answer, whatever has been asked before. -/
theorem basis?_eq (wf : f.graph.WellFormed) (remembers : f.Remembers memo) :
    ∃ memo', f.basis? memo = .ok (f.basis, memo') ∧ f.Remembers memo' := by
  have empty : EquationSystem.ofSize f.size = .ok { size := f.size } := by
    simp [EquationSystem.ofSize]
  obtain ⟨system, memo', taken, size, equations, kept⟩ : ∃ system memo',
      f.tree.chords.foldlM f.addChord ({ size := f.size }, memo) = .ok (system, memo') ∧
        system.size = f.size ∧ system.equations = f.tree.chords.map f.edgeVector ∧
        f.Remembers memo' := by
    cases start : f.tree.start with
    | none =>
      have none : f.tree.chords = [] := by
        simp [SpanningTree.chords, f.tree.sweep_eq, start, Sweep.all]
      rw [none]
      exact ⟨_, memo, rfl, rfl, rfl, remembers⟩
    | some root =>
      have rooted : f.Rooted root := ⟨wf, start⟩
      have blank : ({ size := f.size } : EquationSystem).size = f.size := rfl
      obtain ⟨system, memo', taken, size, equations, kept⟩ :=
        foldlM_addChord rooted remembers blank fun a chord =>
          ⟨(rooted.chord_spec chord).1, (rooted.chord_spec chord).2.1⟩
      exact ⟨system, memo', taken, size, by simpa using equations, kept⟩
  have vectors : system.basis = KernelBasis.of f.size (f.tree.chords.map f.edgeVector) := by
    rw [EquationSystem.basis, size, equations]
  have regions : system.basis.mapM (Region.ofVector f.events ·) = .ok f.basis := by
    rw [vectors]
    apply mapM_eq_ok
    exact fun v member => Region.ofVector_eq (KernelBasis.of_solves member).1 0
  refine ⟨memo', ?_, kept⟩
  exact bind_eq_ok.2 ⟨_, empty, bind_eq_ok.2 ⟨_, taken, bind_eq_ok.2 ⟨_, regions, rfl⟩⟩⟩

end NetSynthesis.Frame
