import NetSynthesis.Net
import NetSynthesis.TransitionSystem

/-! The graph of the reachable markings of a net, explored breadth first. A marking that covers a
different marking on its own way from the initial one can be raised without end, so the net is
unbounded and the exploration stops. -/
namespace NetSynthesis

/-- A state of the graph with its marking and the markings on the way to it, the nearest first. -/
structure MarkedState where
  state : State
  marking : Marking
  way : List Marking := []
  deriving DecidableEq, Repr

structure MarkingGraph where
  system : TransitionSystem
  marked : List MarkedState
  deriving DecidableEq, Repr

namespace MarkingGraph

def covers (m old : Marking) : Bool :=
  m != old && (m.zip old).all fun (k, l) => l ≤ k

def covered? (current : MarkedState) (m : Marking) : Option Marking :=
  (current.marking :: current.way).find? (covers m)

/-- Fires one transition at a state. A new marking becomes a state, unless it covers an earlier
one or the limit is reached. -/
def follow (net : Net) (limit : Int) (current : MarkedState) (g : MarkingGraph) (t : Transition) :
    Except Error MarkingGraph :=
  if !net.enables current.marking t.id then .ok g
  else
    let m := net.after current.marking t.id
    match g.marked.find? (·.marking == m) with
    | some known => do
      let system ← g.system.addArc
        { source := current.state, label := t.label, target := known.state }
      return { g with system }
    | none =>
      match covered? current m with
      | some old => .error (.unbounded m old)
      | none =>
        if limit ≤ (g.system.states.length : Int) then .error (.tooManyMarkings limit)
        else do
          let (system, s) ← g.system.addState
          let system ← system.addArc { source := current.state, label := t.label, target := s }
          return ⟨system, g.marked ++ [⟨s, m, current.marking :: current.way⟩]⟩

def explore (net : Net) (limit : Int) : Nat → Nat → MarkingGraph → Except Error MarkingGraph
  | 0, _, g => .ok g
  | n + 1, k, g =>
    match g.marked[k]? with
    | none => .ok g
    | some current => do
      let g ← net.transitions.foldlM (follow net limit current) g
      explore net limit n (k + 1) g

/-- The whole graph. It has at least the initial state and no more states than the limit
allows. -/
def of (net : Net) (limit : Int := 10000) : Except Error MarkingGraph := do
  let named : TransitionSystem := { name := s!"Reachability graph of {net.name}" }
  let (system, s) ← named.addState
  explore net limit (limit.toNat + 1) 0 ⟨system, [⟨s, net.initialMarking, []⟩]⟩

def maxTokens (g : MarkingGraph) : Int := (g.marked.flatMap (·.marking)).foldl max 0

end MarkingGraph

end NetSynthesis
