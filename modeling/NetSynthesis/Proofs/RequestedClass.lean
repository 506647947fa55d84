import NetSynthesis.Proofs.GatheredRegions
import NetSynthesis.Proofs.LanguageCompleteness
import NetSynthesis.Proofs.PlaceProperties

/-! The class of the net that is made. The arcs of a place are those of its region, so that the net
has every property that all regions have. The bound holds in all markings that can be reached
because the net follows the system. -/
namespace NetSynthesis

open SeparationProgram

variable {f : Frame} {root : State} {c : NetClass} {ls : Locations}

namespace Assembly.MadeOf

variable {a : Assembly f.size} {regions : List (Region f.size)} (made : a.MadeOf regions)
  (rooted : f.Rooted root)

include made rooted

theorem inClass (each : ∀ r ∈ regions, f.inClass r c = true)
    (bounded : ∀ k ∈ c.bound, ∀ m : Marking, a.net.behaviour.Reaches m → ∀ x ∈ m, x ≤ k) :
    a.net.InClass c := by
  have wf := rooted.wellFormed
  have connected (r : Region f.size) (member : r ∈ regions) : Connected c r :=
    (Frame.inClass_iff.1 (each r member)).1
  have plain (given : c.plain = true ∨ c.tNet = true) (r : Region f.size) (member : r ∈ regions) :
      r.isPlain = true := (Frame.inClass_iff.1 (each r member)).2.1 given
  refine ⟨fun given => ?_, fun given => ?_, bounded, fun given => ?_, fun given => ?_,
    fun given => ?_⟩
  · exact (made.isPure_iff wf).2 fun r member => (connected r member).pure given
  · exact made.isPlain_iff.2 (plain (.inl given))
  · exact (made.isPlainTNet_iff wf).2 fun r member =>
      ⟨plain (.inr given) r member, (connected r member).tNet given⟩
  · exact (made.isOutputNonbranching_iff wf).2 fun r member =>
      (connected r member).outputNonbranching given
  · exact (made.isConflictFree_iff wf).2 fun r member => (connected r member).conflictFree given

end Assembly.MadeOf

namespace Synthesis

variable {run : Synthesis f} {a : Assembly f.size} {solve : Solver} {o : Options}
  {languageOnly : Bool}

/-- A net that follows a system has no more tokens on its places than the regions. -/
theorem Solved.bounded (solved : Solved run languageOnly) (rooted : f.Rooted root)
    (made : a.MadeOf run.regions) {k : Int} (within : ∀ r ∈ run.regions, f.bound r ≤ k) :
    ∀ m : Marking, a.net.behaviour.Reaches m → ∀ x ∈ m, x ≤ k := by
  rintro m ⟨w, path⟩ x inside
  obtain ⟨s, way, rfl⟩ := (solved.tracks rooted made).path_back path
  obtain ⟨r, chosen, rfl⟩ := List.mem_map.1 inside
  exact (Frame.bound_le_iff rooted).1 (within r chosen) s
    (rooted.isReachable_iff_reaches.2 ⟨w, way⟩)

end Synthesis

/-! ### Locations -/

/-- No place gives tokens to transitions whose labels are, on arcs that leave reachable states, at
different locations. -/
def Net.Respects (net : Net) (ts : TransitionSystem) (root : State) : Prop :=
  ∀ p ∈ net.places, ∀ t ∈ net.transitions, ∀ t' ∈ net.transitions,
    t.id ∈ net.postset p.id → t'.id ∈ net.postset p.id →
    ∀ x ∈ ts.arcs, ∀ y ∈ ts.arcs, x.label = t.label → y.label = t'.label →
      (ts.behaviour root).Reaches x.source → (ts.behaviour root).Reaches y.source →
      ∀ l ∈ x.location, ∀ m ∈ y.location, l = m

/-- Regions that take tokens at one location make a net that respects the locations of a system
whose arcs the frame has. -/
theorem Assembly.MadeOf.respects {a : Assembly f.size} {regions : List (Region f.size)}
    (made : a.MadeOf regions) (rooted : f.Rooted root) (located : f.locations = .ok ls)
    (each : ∀ r ∈ regions, Frame.isLocal r ls = true) {ts : TransitionSystem} {first : State}
    (arcs : ∀ x ∈ ts.arcs, (ts.behaviour first).Reaches x.source → ∀ l ∈ x.location,
      Frame.Located f.graph.arcs x.label l) : a.net.Respects ts first := by
  rintro p member t listed t' listed' output output' x hx y hy label label' reached reached' l given
    m given'
  have named : ∀ t ∈ a.net.transitions, t.id = t.label := by
    rw [made.transitions_eq, List.forall_mem_map]
    exact fun _ _ => rfl
  rw [made.places_eq] at member
  obtain ⟨⟨id, r⟩, place, rfl⟩ := List.mem_map.1 member
  obtain ⟨i, consumes, at_i⟩ := (made.mem_postset_iff place rooted.wellFormed).1 output
  obtain ⟨j, consumes', at_j⟩ := (made.mem_postset_iff place rooted.wellFormed).1 output'
  rw [named t listed, ← label] at at_i
  rw [named t' listed', ← label'] at at_j
  have one := Frame.isLocal_iff.1 (each r (made.mem_regions place)) i consumes j consumes'
  exact Frame.eq_of_located located at_i at_j one (arcs x hx reached l given)
    (arcs y hy reached' m given')

/-! ### Runs for systems -/

/-- A run for a system, for a net with its marking graph or for one with its language. -/
inductive Synthesizes (solve : Solver) (ts : TransitionSystem) (goal : NetClass) (o : Options) :
    (f : Frame) → Synthesis f → Prop
  | isomorphism {f : Frame} {run : Synthesis f} (framed : Frame.ofSystem ts = .ok f)
      (answer : Synthesis.run solve f goal o = .ok run) : Synthesizes solve ts goal o f run
  | language {f : Frame} {run : Synthesis f}
      (answer : synthesizeLanguage solve ts goal o = .ok ⟨f, run⟩) :
      Synthesizes solve ts goal o f run

variable {solve : Solver} {ts : TransitionSystem} {goal : NetClass} {o : Options}
  {run : Synthesis f}

/-- Both kinds of run are runs on a frame that has the arcs out of reachable states. -/
theorem Synthesizes.exists_run (wf : ts.WellFormed) (det : ts.isDeterministic = true)
    (initial : ts.initial = some root) (answer : Synthesizes solve ts goal o f run) :
    ∃ first languageOnly, f.Rooted first ∧ Synthesis.run solve f goal o languageOnly = .ok run ∧
      ∀ x ∈ ts.arcs, (ts.behaviour root).Reaches x.source → ∀ l ∈ x.location,
        Frame.Located f.graph.arcs x.label l := by
  cases answer with
  | isomorphism framed answer =>
    obtain ⟨g, framed', rfl, rooted⟩ := Synthesis.exists_ofSystem wf initial
    obtain rfl : g = f := Except.ok.inj (framed'.symm.trans framed)
    exact ⟨root, false, rooted, answer, fun x member _ l given => ⟨x, member, rfl, given⟩⟩
  | language answer =>
    obtain ⟨u, first, trace, g, unfolds, framed', graph, rooted⟩ :=
      exists_ofLanguage wf det initial
    obtain ⟨framed, answer⟩ := synthesizeLanguage_eq_ok answer
    obtain rfl : g = f := Except.ok.inj (framed'.symm.trans framed)
    refine ⟨first, true, rooted, answer, fun x member reached l given => ?_⟩
    obtain ⟨b, copied, label, location⟩ := unfolds.exists_copied wf member reached
    exact ⟨b, graph ▸ copied, label, location.trans given⟩

/-- The net of a run that succeeds is in the class that was asked for, and it respects locations. -/
theorem net_inClass {a : Assembly f.size} (wf : ts.WellFormed) (det : ts.isDeterministic = true)
    (initial : ts.initial = some root) (inRange : solve.InRange)
    (answer : Synthesizes solve ts goal o f run) (success : run.succeeded = true)
    (assembled : f.assemble run.regions = .ok a) :
    a.net.InClass goal ∧ a.net.Respects ts root := by
  obtain ⟨first, languageOnly, rooted, answer, arcs⟩ := answer.exists_run wf det initial
  obtain ⟨_, solved⟩ := Synthesis.solved_of_run rooted answer success
  obtain ⟨ls, located, gathered⟩ := Synthesis.gathered_of_run rooted inRange answer
  have made := Frame.madeOf_of_assemble assembled
  have each (r : Region f.size) (member : r ∈ run.regions) :=
    (gathered.obtainable r member).inClass
  refine ⟨made.inClass rooted (fun r member => (each r member).1) fun k given => ?_,
    made.respects rooted located (fun r member => (each r member).2) arcs⟩
  exact solved.bounded rooted made fun r member =>
    (Frame.inClass_iff.1 (each r member).1).2.2 k given

/-! ### A system with two locations -/

namespace Synthesis

def sitedToggle : TransitionSystem :=
  let up : Arc := ⟨"off", "up", "on", some "left"⟩
  let down : Arc := ⟨"on", "down", "off", some "right"⟩
  { initial := some "off"
    incidences := [⟨"off", [up], [down]⟩, ⟨"on", [down], [up]⟩]
    arcs := [up, down]
    alphabet := ["down", "up"] }

def sitedFrame : Frame := ⟨⟨sitedToggle, some "off", .forward, by decide, _, rfl⟩, rfl, _, rfl⟩

def sitedRegions : List (Region sitedFrame.size) :=
  [⟨[⟨0, 1⟩, ⟨1, 0⟩], 1, rfl⟩, ⟨[⟨1, 0⟩, ⟨0, 1⟩], 0, rfl⟩]

def sitedSolver : Solver := fun p =>
  (sitedRegions.map fun r => point r (switchVector strict r)).find? p.feasible

theorem sitedSolver_inRange : sitedSolver.InRange := by
  intro p x answer
  have feasible : p.feasible x = true := List.find?_some answer
  exact (Bool.and_eq_true_iff.1 feasible).1

theorem net_inClass_sitedToggle : ∃ r, Synthesis.run sitedSolver sitedFrame strict = .ok r ∧
    r.succeeded = true ∧ ∃ a, sitedFrame.assemble r.regions = .ok a ∧ a.net.InClass strict ∧
      a.net.Respects sitedToggle "off" := by
  obtain ⟨r, answer, success, a, made⟩ :=
    exists_of_check sitedFrame sitedSolver strict false (by decide +kernel)
  exact ⟨r, answer, success, a, made, net_inClass (by constructor <;> decide) (by decide) rfl
    sitedSolver_inRange (.isomorphism rfl answer) success made⟩

end Synthesis

end NetSynthesis
