import NetSynthesis.Error

/-! Phases of a synthesis and a monitor of the moves between them. A move that is not expected is
recorded and made all the same. -/
namespace NetSynthesis

inductive Phase where
  | initialized
  /-- Event separation. -/
  | essp
  /-- State separation. -/
  | ssp
  | minimizing
  | done
  | failed
  deriving DecidableEq, Repr

namespace Phase

def all : List Phase := [initialized, essp, ssp, minimizing, done, failed]

def name : Phase → String
  | initialized => "initialized"
  | essp => "essp"
  | ssp => "ssp"
  | minimizing => "minimizing"
  | done => "done"
  | failed => "failed"

def parse (name : String) : Except Error Phase :=
  match all.find? (·.name == name) with
  | some p => .ok p
  | none => .error (.unknownName name "SynthesisPhase")

/-- The phases that may follow in a synthesis. State separation is left out where only the
language of the net counts. -/
def successors : Phase → List Phase
  | initialized => [essp, failed]
  | essp => [ssp, minimizing, failed]
  | ssp => [minimizing, failed]
  | minimizing => [done, failed]
  | done => []
  | failed => []

end Phase

structure PhaseMonitor where
  name : String := "synthesis"
  successors : Phase → List Phase := Phase.successors
  current : Phase := .initialized
  history : List (Phase × Phase) := []
  invalid : List (Phase × Phase) := []

namespace PhaseMonitor

def expects (m : PhaseMonitor) (p : Phase) : Bool := (m.successors m.current).contains p

def move (m : PhaseMonitor) (p : Phase) : PhaseMonitor :=
  { m with
    current := p
    history := m.history ++ [(m.current, p)]
    invalid := if m.expects p then m.invalid else m.invalid ++ [(m.current, p)] }

def isFinished (m : PhaseMonitor) : Bool := (m.successors m.current).isEmpty

def entered (m : PhaseMonitor) : List Phase := m.history.map (·.2)

end PhaseMonitor

end NetSynthesis
