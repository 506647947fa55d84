import NetSynthesis.Assembly
import NetSynthesis.DisjointSets
import NetSynthesis.Minimization
import NetSynthesis.PhaseMonitor
import NetSynthesis.Separation
import NetSynthesis.SynthesisChecks
import NetSynthesis.Unfolding

/-! Synthesis of nets from deterministic transition systems. All event separation problems and then
all state separation problems are solved one after the other, by a region found before if there is
one and else by a new search. If every problem has a solution, the regions are reduced to what is
needed and each becomes a place; if not, the unsolved problems are reported. For a net that only has
to have the language of the system, the limited unfolding is taken and states are not separated. -/
namespace NetSynthesis

inductive Notice.Kind where
  | phase | basis | regionFound | regionCalculated | failure | minimized
  deriving DecidableEq, Repr

def Notice.Kind.name : Notice.Kind → String
  | phase => "phase"
  | basis => "basis"
  | regionFound => "region_found"
  | regionCalculated => "region_calculated"
  | failure => "failure"
  | minimized => "minimized"

structure Notice where
  kind : Notice.Kind
  message : String
  deriving DecidableEq, Repr

/-- A synthesis under way or finished. -/
structure Synthesis (f : Frame) where
  goal : NetClass
  options : Options
  languageOnly : Bool
  locations : Locations
  chain : SearchChain f
  monitor : PhaseMonitor
  regions : List (Region f.size) := []
  /-- The pairs of states that could not be told apart. -/
  failedStates : DisjointSets State := {}
  /-- The events with the states in which they could not be disabled. -/
  failedEvents : List (Event × List State) := []
  examined : Nat := 0
  notices : List Notice := []

/-- Why a synthesis ends before its time: it was to stop at the first failure, or an error. -/
inductive Stop (f : Frame) where
  | quickFail (run : Synthesis f)
  | error (e : Error) (run : Synthesis f)

namespace Synthesis

variable {f : Frame}

def notify (run : Synthesis f) (kind : Notice.Kind) (message : String) : Synthesis f :=
  { run with notices := run.notices ++ [⟨kind, message⟩] }

def enter (run : Synthesis f) (p : Phase) : Synthesis f :=
  { run with monitor := run.monitor.move p }.notify .phase s!"Entering phase {p.name}"

def countProblem (run : Synthesis f) : Except (Stop f) (Synthesis f) :=
  let run := { run with examined := run.examined + 1 }
  match run.options.budget with
  | none => .ok run
  | some limit =>
    if limit < run.examined then .error (.error (.budgetExceeded limit) (run.enter .failed))
    else .ok run

def accept (run : Synthesis f) (r : Region f.size) : Synthesis f :=
  { run with regions := run.regions ++ [r] }.notify .regionCalculated
    s!"Calculated region {r.text f.events}"

/-- Goes on after a failure, unless the synthesis is to stop at the first one. -/
def afterFailure (run : Synthesis f) : Except (Stop f) (Synthesis f) :=
  if run.options.quickFail then .error (.quickFail run) else .ok run

/-! ### Separation problems -/

/-- Adds a state to those of an event, which come in no particular order. -/
def addState (e : Event) (s : State) :
    List (Event × List State) → List (Event × List State)
  | [] => [(e, [s])]
  | (e', ss) :: rest =>
    if e' = e then (e', ss ++ [s]) :: rest else (e', ss) :: addState e s rest

def failEvent (run : Synthesis f) (s : State) (e : Event) : Synthesis f :=
  { run with failedEvents := addState e s run.failedEvents }.notify .failure
    s!"Cannot disable event {e} at state {s}"

def failStates (run : Synthesis f) (s t : State) : Synthesis f :=
  { run with failedStates := (run.failedStates.join s t).2 }.notify .failure
    s!"Cannot separate states {s} and {t}"

def solveEvent (solve : Solver) (run : Synthesis f) (problem : State × Event) :
    Except (Stop f) (Synthesis f) := do
  let (s, e) := problem
  let run ← run.countProblem
  match run.regions.find? (f.disables · s e) with
  | some r =>
    return run.notify .regionFound s!"Event {e} already disabled at {s} by {r.text f.events}"
  | none =>
    match run.chain.disabling solve s e with
    | .error e => throw (.error e run)
    | .ok (some r) => return run.accept r
    | .ok none => (run.failEvent s e).afterFailure

def solveStates (solve : Solver) (run : Synthesis f) (problem : State × State) :
    Except (Stop f) (Synthesis f) := do
  let (s, t) := problem
  let run ← run.countProblem
  match run.regions.find? (f.separates · s t) with
  | some r =>
    return run.notify .regionFound
      s!"States {s} and {t} already separated by {r.text f.events}"
  | none =>
    match run.chain.separating solve s t with
    | .error e => throw (.error e run)
    | .ok (some r) => return run.accept r
    | .ok none => (run.failStates s t).afterFailure

/-! ### Results -/

def failedStateGroups (run : Synthesis f) : List (List State) := run.failedStates.classes.1

def succeeded (run : Synthesis f) : Bool :=
  run.failedEvents.isEmpty && run.failedStateGroups.isEmpty

/-! ### Whole runs -/

def solveEvents (solve : Solver) (run : Synthesis f) : Except (Stop f) (Synthesis f) :=
  f.eventProblems.foldlM (solveEvent solve) (run.enter .essp)

/-- Only pairs of states are looked at that the regions found so far do not tell apart. -/
def separateStates (solve : Solver) (run : Synthesis f) : Except (Stop f) (Synthesis f) :=
  if run.languageOnly then .ok run
  else (f.statePairs run.regions).foldlM (solveStates solve) (run.enter .ssp)

def finish (run : Synthesis f) : Synthesis f :=
  let run := run.enter .minimizing
  let kept := f.minimize run.regions (!run.languageOnly)
  let run := { run with regions := kept }.notify .minimized
    s!"Minimized {run.regions.length} regions to {kept.length}"
  run.enter (if run.succeeded then .done else .failed)

def start (f : Frame) (goal : NetClass) (options : Options) (languageOnly : Bool) :
    Except Error (Synthesis f) := do
  f.graph.checkInitial
  f.graph.checkDeterministic
  let locations ← f.locations
  let basis := f.basis
  let run : Synthesis f := {
    goal, options, languageOnly, locations
    chain := .of f basis goal locations options
    monitor := { name := s!"synthesis of {Text.quoted f.graph.name}" } }
  return run.notify .basis s!"Region basis has {basis.length} regions"

/-- A failure before a synthesis has results, with the notices until then. -/
structure Failure where
  error : Error
  notices : List Notice := []

def run (solve : Solver) (f : Frame) (goal : NetClass := .all) (options : Options := {})
    (languageOnly : Bool := false) : Except Failure (Synthesis f) :=
  match start f goal options languageOnly with
  | .error e => .error { error := e }
  | .ok run =>
    match (run.solveEvents solve).bind (separateStates solve) with
    | .ok run => .ok run.finish
    | .error (.quickFail run) => .ok (run.enter .failed)
    | .error (.error e run) => .error ⟨e, run.notices⟩

/-! ### Nets -/

/-- The net of the regions, if all problems have been solved. -/
def assembly (run : Synthesis f) : Except Error (Option (Assembly f.size)) :=
  if run.succeeded then (f.assemble run.regions).map some else .ok none

def verify (run : Synthesis f) (net : Net) : Except Error Unit :=
  if !run.options.verify then .ok ()
  else do
    let checker := synthesisChecker () f.graph run.goal (f.events.zip run.locations)
      run.options.stateLimit (!run.languageOnly)
    (← (checker.checkAll net).2).raise

def net (run : Synthesis f) : Except Error (Option Net) := do
  match ← run.assembly with
  | none => return none
  | some a =>
    run.verify a.net
    return some a.net

def text (run : Synthesis f) : String :=
  s!"SynthesizePN(ts={Text.quoted f.graph.name}, properties={run.goal.text}, " ++
    s!"phase={run.monitor.current.name})"

end Synthesis

/-- The frame of a system's tree from the initial state. -/
def Frame.ofSystem (ts : TransitionSystem) : Except Error Frame := do
  Frame.of (← SpanningTree.of ts)

/-- The frame on which a net with the language of a system is synthesized. -/
def Frame.ofLanguage (ts : TransitionSystem) : Except Error Frame := do
  Frame.ofSystem (← unfolding ts).system

def synthesizeLanguage (solve : Solver) (ts : TransitionSystem) (goal : NetClass := .all)
    (options : Options := {}) : Except Synthesis.Failure ((f : Frame) × Synthesis f) :=
  match Frame.ofLanguage ts with
  | .error e => .error { error := e }
  | .ok f => (Synthesis.run solve f goal options true).map fun run => ⟨f, run⟩

end NetSynthesis
