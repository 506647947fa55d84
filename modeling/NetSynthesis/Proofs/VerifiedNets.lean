import NetSynthesis.Proofs.CheckerVerdicts
import NetSynthesis.Proofs.ExplorationVerdicts
import NetSynthesis.Proofs.PlaceNames
import NetSynthesis.Proofs.RequestedClass

/-! Verification of synthesized nets. The net of a run that succeeds is in the class that was asked
for, respects the locations and has as many markings as the system has reachable states, so that the
checks for these always pass. It has the graph of the system from the root of the frame, while the
check for isomorphism takes the graph from the initial state. A net is therefore rejected just if
these two graphs differ. -/
namespace NetSynthesis

open Synthesis

variable {f : Frame} {root : State} {c : NetClass} {ls : Locations} {solve : Solver} {o : Options}
  {languageOnly : Bool} {run : Synthesis f}

namespace Assembly.MadeOf

variable {a : Assembly f.size} {regions : List (Region f.size)} (made : a.MadeOf regions)
  (rooted : f.Rooted root)

include made rooted

theorem labelled : a.net.Labelled := by
  have labels : a.net.transitions.map (·.label) = f.events := by
    rw [made.transitions_eq, List.map_map]
    exact List.map_id _
  rw [Net.Labelled, labels]
  exact rooted.wellFormed.alphabet_nodup

theorem isDistributed (located : f.locations = .ok ls)
    (each : ∀ r ∈ regions, Frame.isLocal r ls = true) :
    a.net.isDistributed (fun e => ((f.events.zip ls).lookup e).join) = true := by
  have wf := rooted.wellFormed
  have site {r : Region f.size} {i : Nat} (consumes : i ∈ r.consumers) {l : Location}
      (found : l ∈ f.events[i]?.bind fun e => ((f.events.zip ls).lookup e).join) :
      ls[i]?.getD none = some l := by
    obtain ⟨e, at_i, found⟩ := Option.bind_eq_some_iff.1 found
    have inside : i < ls.length := by
      have bound := (SeparationProgram.mem_consumers.1 consumes).1
      rwa [(Frame.locations_uniform located).1]
    have entry := List.getElem?_eq_getElem inside
    have known : (f.events.zip ls).lookup e = some ls[i] :=
      Frame.lookup_zip wf.alphabet_nodup at_i entry
    rw [entry, Option.getD_some]
    simpa [known] using found
  refine (made.isDistributed_iff wf).2 fun r member i hi j hj l at_i m at_j => ?_
  have one := Frame.isLocal_iff.1 (each r member) i hi j hj
  rw [site hi at_i, site hj at_j] at one
  exact Option.some.inj one

end Assembly.MadeOf

namespace Synthesis

/-- The markings of a net that follows a system are those of its reachable states. -/
theorem Solved.exists_markings {a : Assembly f.size} (solved : Solved run languageOnly)
    (rooted : f.Rooted root) (made : a.MadeOf run.regions) : ∃ ms : List Marking,
      (∀ m, a.net.behaviour.Reaches m → m ∈ ms) ∧ ms.length ≤ f.graph.states.length := by
  refine ⟨f.graph.states.map fun s => run.regions.map (f.tokens · s), ?_, by simp⟩
  rintro m ⟨w, path⟩
  obtain ⟨s, way, rfl⟩ := (solved.tracks rooted made).path_back path
  have found := rooted.isReachable_iff_reaches.2 ⟨w, way⟩
  exact List.mem_map.2 ⟨s, rooted.mem_states found, rfl⟩

/-- What the verification of a run's net depends on. -/
structure Verifiable (f : Frame) (net : Net) (c : NetClass) (ls : Locations) (limit : Int) :
    Prop where
  labelled : net.Labelled
  inClass : net.InClass c
  distributed : net.isDistributed (fun e => ((f.events.zip ls).lookup e).join) = true
  graph : ∃ g, MarkingGraph.of net limit = .ok g

theorem verifiable_of_run {a : Assembly f.size} (rooted : f.Rooted root) (inRange : solve.InRange)
    (answer : Synthesis.run solve f c o languageOnly = .ok run) (success : run.succeeded = true)
    (room : (f.graph.states.length : Int) ≤ o.stateLimit)
    (made : a.MadeOf run.regions) : Verifiable f a.net c run.locations o.stateLimit := by
  obtain ⟨_, solved⟩ := solved_of_run rooted answer success
  obtain ⟨ls, located, gathered⟩ := gathered_of_run rooted inRange answer
  have each (r : Region f.size) (member : r ∈ run.regions) :=
    (gathered.obtainable r member).inClass
  obtain ⟨ms, all, few⟩ := solved.exists_markings rooted made
  refine ⟨made.labelled rooted, ?_, ?_, ?_⟩
  · refine made.inClass rooted (fun r member => (each r member).1) fun k given => ?_
    exact solved.bounded rooted made fun r member =>
      (Frame.inClass_iff.1 (each r member).1).2.2 k given
  · rw [gathered.locations]
    exact made.isDistributed rooted located fun r member => (each r member).2
  · have within : a.net.reachableMarkings ⊆ ms.toFinset := fun m reached =>
      List.mem_toFinset.2 (all m reached)
    have count := Set.ncard_le_ncard within ms.toFinset.finite_toSet
    rw [Set.ncard_coe_finset] at count
    have short := ms.toFinset_card_le
    exact MarkingGraph.exists_of (made.labelled rooted).twinless
      (ms.toFinset.finite_toSet.subset within) (by omega)

/-- A net that has been assembled is given out if it is verified. -/
theorem net_eq {a : Assembly f.size} (success : run.succeeded = true)
    (assembled : f.assemble run.regions = .ok a) :
    run.net = (run.verify a.net).map fun _ => some a.net := by
  have assembly : run.assembly = .ok (some a) := by
    simp [Synthesis.assembly, success, assembled, Except.map]
  rw [Synthesis.net, assembly]
  cases verified : run.verify a.net with
  | error e => simp [bind, Except.bind, Except.map, verified]
  | ok _ => simp [bind, Except.bind, Except.map, verified, pure, Except.pure]

/-- The verification depends on the comparison of the marking graph with the system. -/
theorem verify_eq {net : Net} {g : MarkingGraph} {same : Bool}
    (gathered : Gathered c ls o languageOnly run)
    (verifiable : Verifiable f net c run.locations o.stateLimit)
    (graph : MarkingGraph.of net o.stateLimit = .ok g)
    (compared : hasGraph f.graph o.stateLimit net = .ok same) :
    run.verify net = if o.verify && (!languageOnly && !same) then
      .error (.inconsistent net.name ["isomorphic"]) else .ok () := by
  have checked := @synthesisChecker_raise net o.stateLimit f.graph c same
    (f.events.zip run.locations) (!languageOnly) (passes_classChecks verifiable.inClass graph)
    verifiable.distributed compared
  rw [verify, gathered.options, gathered.goal, gathered.languageOnly]
  cases o.verify with
  | false => rfl
  | true => simpa using checked

section Verification

variable {first : State} (rooted : f.Rooted root) (initial : f.graph.initial = some first)
  (inRange : solve.InRange) (answer : Synthesis.run solve f c o languageOnly = .ok run)
  (success : run.succeeded = true) (room : (f.graph.states.length : Int) ≤ o.stateLimit)

include rooted initial inRange answer success room

/-- A net that is made is given out, unless it is verified to have the graph of the system and the
root of the frame has another one than the initial state. -/
theorem net_of_assemble {a : Assembly f.size} (assembled : f.assemble run.regions = .ok a) :
    (run.net = .ok (some a.net) ∧ (o.verify = true → languageOnly = false →
        (f.graph.behaviour root).Isomorphic (f.graph.behaviour first))) ∨
      (run.net = .error (.inconsistent a.net.name ["isomorphic"]) ∧ o.verify = true ∧
        languageOnly = false ∧
          ¬ (f.graph.behaviour root).Isomorphic (f.graph.behaviour first)) := by
  obtain ⟨deterministic, solved⟩ := solved_of_run rooted answer success
  have made := Frame.madeOf_of_assemble assembled
  have verifiable := verifiable_of_run rooted inRange answer success room made
  obtain ⟨g, graph⟩ := verifiable.graph
  obtain ⟨same, compared, same_iff⟩ := hasGraph_eq_ok rooted.wellFormed
    (TransitionSystem.checkDeterministic_eq_ok.1 deterministic) initial
    verifiable.labelled.definite graph
  obtain ⟨ls, _, gathered⟩ := gathered_of_run rooted inRange answer
  rw [net_eq success assembled, verify_eq gathered verifiable graph compared]
  cases languageOnly with
  | true => exact .inl ⟨by simp [Except.map], by simp⟩
  | false =>
    have net_graph : (f.graph.behaviour root).Isomorphic a.net.behaviour :=
      (solved.tracks rooted made).isomorphic fun s t hs ht => solved.markings_differ rooted hs ht
    have graphs : same = true ↔
        (f.graph.behaviour root).Isomorphic (f.graph.behaviour first) :=
      same_iff.trans ⟨net_graph.trans, net_graph.symm.trans⟩
    rw [← graphs]
    cases o.verify <;> cases same <;> simp [Except.map]

/-- Verification rejects a net just if the root of the frame has another graph than the initial
state, and it finds nothing else wrong with it. All other nets that are assembled are given out. -/
theorem net_inconsistent_iff :
    (∀ name checks, run.net = .error (.inconsistent name checks) ↔
      (∃ a, f.assemble run.regions = .ok a ∧ name = a.net.name) ∧ checks = ["isomorphic"] ∧
        o.verify = true ∧ languageOnly = false ∧
          ¬ (f.graph.behaviour root).Isomorphic (f.graph.behaviour first)) ∧
    ∀ a, f.assemble run.regions = .ok a → (o.verify = true → languageOnly = false →
      (f.graph.behaviour root).Isomorphic (f.graph.behaviour first)) →
        run.net = .ok (some a.net) := by
  have cases {a : Assembly f.size} :=
    @net_of_assemble f root c solve o languageOnly run first rooted initial inRange answer success
      room a
  refine ⟨fun name checks => ⟨fun rejected => ?_, ?_⟩, fun a assembled fits => ?_⟩
  · have valid := (solved_of_run rooted answer success).2.valid
    rcases Frame.assemble_cases rooted.wellFormed (fun r member => (valid r member).initial) with
      ⟨a, assembled⟩ | ⟨id, failed⟩
    · rcases cases assembled with ⟨given, _⟩ | ⟨wrong, rejects⟩
      · simp [given] at rejected
      · rw [wrong] at rejected
        obtain ⟨rfl, rfl⟩ := Error.inconsistent.inj (Except.error.inj rejected)
        exact ⟨⟨a, assembled, rfl⟩, rfl, rejects⟩
    · simp [Synthesis.net, Synthesis.assembly, success, failed, Except.map, bind, Except.bind]
        at rejected
  · rintro ⟨⟨a, assembled, rfl⟩, rfl, verifies, both, differ⟩
    rcases cases assembled with ⟨_, fits⟩ | ⟨wrong, _⟩
    · exact absurd (fits verifies both) differ
    · exact wrong
  · rcases cases assembled with ⟨given, _⟩ | ⟨_, verifies, both, differ⟩
    · exact given
    · exact absurd (fits verifies both) differ

end Verification

/-! ### A system seen from its other state -/

def turnedFrame : Frame := ⟨⟨toggle, some "on", .forward, by decide, _, rfl⟩, rfl, _, rfl⟩

theorem turnedFrame_rooted : turnedFrame.Rooted "on" := ⟨toggle_wellFormed, rfl⟩

theorem none_inRange : Solver.InRange fun _ => none := by
  simp [Solver.InRange]

theorem exists_turned_run : ∃ r, Synthesis.run (fun _ => none) turnedFrame = .ok r ∧
    r.succeeded = true ∧ r.net = .error (.inconsistent "" ["isomorphic"]) := by
  have check : ((Synthesis.run (fun _ => none) turnedFrame).toOption.any fun r =>
      r.succeeded && decide (r.net = .error (.inconsistent "" ["isomorphic"]))) = true := by
    decide +kernel
  obtain ⟨r, answer, both⟩ := exists_of_any check
  exact ⟨r, answer, by simpa using both⟩

theorem net_inconsistent_iff_turned : turnedFrame.Rooted "on" ∧
    turnedFrame.graph.initial = some "off" ∧ Solver.InRange (fun _ => none) ∧
    (turnedFrame.graph.states.length : Int) ≤ ({} : Options).stateLimit ∧
    ∃ r, Synthesis.run (fun _ => none) turnedFrame = .ok r ∧ r.succeeded = true ∧
      r.net = .error (.inconsistent "" ["isomorphic"]) ∧
      (∃ a, turnedFrame.assemble r.regions = .ok a ∧ "" = a.net.name) ∧
      ¬ (turnedFrame.graph.behaviour "on").Isomorphic (turnedFrame.graph.behaviour "off") := by
  obtain ⟨r, answer, success, rejected⟩ := exists_turned_run
  obtain ⟨assembled, _, _, _, differ⟩ :=
    ((net_inconsistent_iff turnedFrame_rooted rfl none_inRange answer success (by decide)).1 _ _).1
      rejected
  exact ⟨turnedFrame_rooted, rfl, none_inRange, by decide, r, answer, success, rejected,
    assembled, differ⟩

/-- The net of a run that has solved all problems is rejected. -/
theorem rejected_turned : turnedFrame.Rooted "on" ∧ turnedFrame.graph.isDeterministic = true ∧
    (turnedFrame.graph.states.length : Int) ≤ ({} : Options).stateLimit ∧
    ∃ r, Synthesis.run (fun _ => none) turnedFrame = .ok r ∧ r.succeeded = true ∧
      r.net = .error (.inconsistent "" ["isomorphic"]) :=
  ⟨turnedFrame_rooted, by decide, by decide, exists_turned_run⟩

end Synthesis

end NetSynthesis
