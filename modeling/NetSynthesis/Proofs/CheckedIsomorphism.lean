import NetSynthesis.Proofs.CheckerVerdicts
import NetSynthesis.Proofs.ExplorationVerdicts
import NetSynthesis.Proofs.ReachableMarkings

/-! The check that a net has the graph of a system. A net without a marking graph fails it, one with
a deterministic graph passes if the graphs are isomorphic, and of a graph that is not deterministic
there is no verdict. All other checks of synthesized nets give one, so this is the only thing that
keeps them from a report. -/
namespace NetSynthesis

open LabelledGraph

variable {ρ : Type} {net : Net} {limit : Int} {ts : TransitionSystem} {c : NetClass}
  {locations : List (Event × Option Location)}

/-- The reachable markings of a net and the reachable states of a system make isomorphic graphs. A
system without an initial state has none. -/
def Net.Realizes (net : Net) (ts : TransitionSystem) : Prop :=
  ∃ first, ts.initial = some first ∧ net.behaviour.Isomorphic (ts.behaviour first)

theorem hasGraph_of_forked (ts : TransitionSystem) {g : MarkingGraph}
    (graph : MarkingGraph.of net limit = .ok g) (forked : ¬ net.Definite) : ∃ name states,
      hasGraph ts limit net = .error (.nondeterministic name states) := by
  have undetermined : g.system.isDeterministic = false :=
    Bool.eq_false_iff.2 fun det => forked ((MarkingGraph.isDeterministic_iff graph).1 det)
  refine ⟨g.system.name, g.system.nondeterministicStates, ?_⟩
  simp [hasGraph, graph, isomorphism, TransitionSystem.checkDeterministic, undetermined,
    Except.map, bind, Except.bind]

section Deterministic

variable (wf : ts.WellFormed) (det : ts.isDeterministic = true)

include wf det

theorem hasGraph_of_definite {g : MarkingGraph} (graph : MarkingGraph.of net limit = .ok g)
    (definite : net.Definite) :
    ∃ b, hasGraph ts limit net = .ok b ∧ (b = true ↔ net.Realizes ts) := by
  cases initial : ts.initial with
  | some first =>
    obtain ⟨b, answer, same⟩ := hasGraph_eq_ok wf det initial definite graph
    exact ⟨b, answer, by simp [same, Net.Realizes, initial]⟩
  | none =>
    obtain ⟨v, answer, same⟩ := Isomorphism.isomorphism_eq_ok_of_none
      ((MarkingGraph.isDeterministic_iff graph).2 definite) det (.inr initial)
    obtain ⟨s, start, _⟩ := MarkingGraph.matches_of graph
    refine ⟨v.holds, by simp [hasGraph, graph, answer, Except.map], ?_⟩
    simp [same, TransitionSystem.Isomorphic, Net.Realizes, start, initial]

/-- The check gives a verdict unless there is a graph and it is not deterministic. -/
theorem hasGraph_isOk_iff : (∃ b, hasGraph ts limit net = .ok b) ↔
    ((∃ g, MarkingGraph.of net limit = .ok g) → net.Definite) := by
  constructor
  · rintro ⟨b, answer⟩ ⟨g, graph⟩
    by_contra forked
    obtain ⟨name, states, failed⟩ := hasGraph_of_forked ts graph forked
    simp [answer] at failed
  · intro definite
    cases graph : MarkingGraph.of net limit with
    | error e => exact ⟨false, by simp [hasGraph, graph]⟩
    | ok g =>
      obtain ⟨b, answer, _⟩ := hasGraph_of_definite wf det graph (definite ⟨g, graph⟩)
      exact ⟨b, answer⟩

theorem kind_of_hasGraph {e : Error} (failed : hasGraph ts limit net = .error e) :
    e.kind = .nondeterministic := by
  have silent : ¬ ∃ b, hasGraph ts limit net = .ok b := by simp [failed]
  rw [hasGraph_isOk_iff wf det, Classical.not_imp] at silent
  obtain ⟨⟨g, graph⟩, forked⟩ := silent
  obtain ⟨name, states, answer⟩ := hasGraph_of_forked ts graph forked
  rw [← Except.error.inj (answer.symm.trans failed)]
  rfl

end Deterministic

/-! ### Reports -/

def graphCheck (ts : TransitionSystem) (limit : Int) : Check where
  name := "isomorphic"
  condition := hasGraph ts limit
  message := "Reachability graph is not isomorphic to the transition system"

theorem graphCheck_mem (record : ρ) : graphCheck ts limit ∈
    (synthesisChecker record ts c locations limit).checks := by
  simp [synthesisChecker, graphCheck]

theorem isOk_or_eq_graphCheck (record : ρ) (net : Net) :
    ∀ k ∈ (synthesisChecker record ts c locations limit).checks,
      (∃ b, k.condition net = .ok b) ∨ k = graphCheck ts limit := by
  intro k member
  simp only [synthesisChecker, classChecks, List.mem_append, List.mem_map, List.mem_ite_nil_right,
    List.mem_singleton] at member
  obtain (((((((⟨_, rfl⟩ | ⟨_, rfl⟩) | ⟨_, rfl⟩) | ⟨_, rfl⟩) | ⟨_, rfl⟩) | ⟨_, _, rfl⟩) |
    ⟨_, rfl⟩) | ⟨_, rfl⟩) := member
  case inl.inr => exact .inr rfl
  case inl.inl.inr =>
    refine .inl ?_
    dsimp only [staysBelow]
    split <;> exact ⟨_, rfl⟩
  all_goals exact .inl ⟨_, rfl⟩

theorem report_of_hasGraph {b : Bool} (record : ρ) (c : NetClass)
    (locations : List (Event × Option Location)) (compared : hasGraph ts limit net = .ok b) :
    ∃ r, ((synthesisChecker record ts c locations limit).checkAll net).2 = .ok r ∧
      ("isomorphic" ∈ r.violated ↔ b = false) := by
  have registered := synthesisChecker_registered record ts c locations limit true
  have answers : ∀ k ∈ (synthesisChecker record ts c locations limit).checks,
      ∃ b, k.condition net = .ok b := by
    intro k member
    rcases isOk_or_eq_graphCheck record net k member with answer | rfl
    · exact answer
    · exact ⟨b, compared⟩
  obtain ⟨_, all⟩ := mapM_isOk_iff.2 answers
  refine ⟨_, by rw [registered.checkAll, all]; rfl, ?_⟩
  have verdict : Checker.passes net (graphCheck ts limit) = b := Checker.passes_eq compared
  simp only [Report.violated, List.map_map, List.mem_map, List.mem_filter, Bool.not_eq_true',
    Function.comp_apply, Checker.violation]
  constructor
  · rintro ⟨k, ⟨member, fails⟩, name⟩
    obtain rfl : k = graphCheck ts limit := List.inj_on_of_nodup_map registered.names_nodup
      member (graphCheck_mem record) name
    exact verdict.symm.trans fails
  · exact fun differ => ⟨_, ⟨graphCheck_mem record, verdict.trans differ⟩, rfl⟩

theorem error_of_hasGraph {e : Error} (record : ρ) (c : NetClass)
    (locations : List (Event × Option Location)) (failed : hasGraph ts limit net = .error e) :
    ((synthesisChecker record ts c locations limit).checkAll net).2 = .error e := by
  rw [(synthesisChecker_registered record ts c locations limit true).checkAll, map_eq_error]
  cases all : (synthesisChecker record ts c locations limit).checks.mapM
      fun k : Check => k.condition net with
  | ok _ =>
    obtain ⟨b, answer⟩ := mapM_isOk_iff.1 ⟨_, all⟩ _ (graphCheck_mem record)
    exact absurd (answer.symm.trans failed) (by simp)
  | error e' =>
    obtain ⟨k, member, refused⟩ := exists_of_mapM_eq_error all
    rcases isOk_or_eq_graphCheck record net k member with ⟨b, answer⟩ | rfl
    · simp [refused] at answer
    · rw [Except.error.inj (refused.symm.trans failed)]

/-- The verdict on a net with no more reachable markings than the limit. -/
theorem verdict_iff {b : Bool} (wf : ts.WellFormed) (det : ts.isDeterministic = true)
    (finite : net.reachableMarkings.Finite) (room : (net.reachableMarkings.ncard : Int) ≤ limit)
    (compared : hasGraph ts limit net = .ok b) : b = true ↔ net.Twinless ∧ net.Realizes ts := by
  by_cases twinless : net.Twinless
  · obtain ⟨g, graph⟩ := MarkingGraph.exists_of twinless finite room
    have definite := (hasGraph_isOk_iff wf det).1 ⟨b, compared⟩ ⟨g, graph⟩
    obtain ⟨b', answer, same⟩ := hasGraph_of_definite wf det graph definite
    rw [Except.ok.inj (compared.symm.trans answer), same, and_iff_right twinless]
  · have none (g : MarkingGraph) : MarkingGraph.of net limit ≠ .ok g := fun graph =>
      twinless (MarkingGraph.twinless_of graph)
    have fails : hasGraph ts limit net = .ok false := by
      cases graph : MarkingGraph.of net limit with
      | ok g => exact absurd graph (none g)
      | error e => simp [hasGraph, graph]
    simp [Except.ok.inj (compared.symm.trans fails), twinless]

/-- A report is made unless the net has a graph that is not deterministic. If there are no more
reachable markings than the limit, it says whether the net realizes the system, but finds fault with
all nets that have twins. -/
theorem reports_isomorphism (record : ρ) (wf : ts.WellFormed) (det : ts.isDeterministic = true)
    (c : NetClass) (locations : List (Event × Option Location)) (limit : Int) (net : Net) :
    ((∃ r, ((synthesisChecker record ts c locations limit).checkAll net).2 = .ok r) ↔
      ((∃ g, MarkingGraph.of net limit = .ok g) → net.Definite)) ∧
    (∀ e, ((synthesisChecker record ts c locations limit).checkAll net).2 = .error e →
      e.kind = .nondeterministic) ∧
    ∀ r, ((synthesisChecker record ts c locations limit).checkAll net).2 = .ok r →
      net.reachableMarkings.Finite → (net.reachableMarkings.ncard : Int) ≤ limit →
        ("isomorphic" ∈ r.violated ↔ ¬ (net.Twinless ∧ net.Realizes ts)) := by
  rw [← hasGraph_isOk_iff wf det]
  cases compared : hasGraph ts limit net with
  | error e =>
    simp [error_of_hasGraph record c locations compared, kind_of_hasGraph wf det compared]
  | ok b =>
    obtain ⟨r, made, violated⟩ := report_of_hasGraph record c locations compared
    refine ⟨by simp [made], by simp [made], ?_⟩
    rintro r' made' finite room
    obtain rfl := Except.ok.inj (made.symm.trans made')
    rw [violated, ← verdict_iff wf det finite room compared, Bool.not_eq_true]

def stepSystem : TransitionSystem :=
  let go : Arc := ⟨"s0", "go", "s1", none⟩
  { initial := some "s0"
    incidences := [⟨"s0", [go], []⟩, ⟨"s1", [], [go]⟩]
    arcs := [go]
    alphabet := ["go"] }

theorem stepSystem_wellFormed : stepSystem.WellFormed := by
  constructor <;> decide

open MarkingGraph in
theorem reports_isomorphism_shuttle : ∃ r,
    ((synthesisChecker () stepSystem {} [] 2).checkAll shuttleNet).2 = .ok r ∧
      ("isomorphic" ∈ r.violated ↔ ¬ (shuttleNet.Twinless ∧ shuttleNet.Realizes stepSystem)) := by
  obtain ⟨made, _, exact_report⟩ :=
    reports_isomorphism () stepSystem_wellFormed (by decide) {} [] 2 shuttleNet
  have labelled : shuttleNet.Labelled := by simp [Net.Labelled, shuttleNet]
  obtain ⟨r, answer⟩ := made.2 fun _ => labelled.definite
  refine ⟨r, answer, exact_report r answer (Set.finite_of_encard_eq_coe encard_shuttle) ?_⟩
  simp [Set.ncard, encard_shuttle]

/-- No report is made of the token that one label moves two ways. -/
theorem no_report_forked : stepSystem.isDeterministic = true ∧
    ((synthesisChecker () stepSystem {}).checkAll MarkingGraph.forkedNet).2 =
      .error (.nondeterministic "Reachability graph of " ["s0"]) :=
  ⟨by decide, by decide +kernel⟩

end NetSynthesis
