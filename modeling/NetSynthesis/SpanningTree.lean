import NetSynthesis.TransitionSystem

/-! Breadth-first spanning trees of transition systems. A search from a start state gives every
state that it finds the arc by which it was found first; every other arc that the search meets is a
chord, loops included. A search may also follow the arcs backward, and then the tree describes paths
to the start. -/
namespace NetSynthesis

inductive Direction where
  | forward | backward
  deriving DecidableEq, Repr

namespace Direction

def edges (ts : TransitionSystem) : Direction → State → List Arc
  | forward, s => ts.outgoing s
  | backward, s => ts.incoming s

/-- The end of an arc that a search comes from. -/
def near : Direction → Arc → State
  | forward, a => a.source
  | backward, a => a.target

def far : Direction → Arc → State
  | forward, a => a.target
  | backward, a => a.source

end Direction

/-- What a search has found: states in order, each with the arc that it was found by, and the
arcs that led to states found already. -/
structure Sweep where
  discovered : List (State × Option Arc) := []
  chords : List Arc := []
  deriving DecidableEq, Repr

namespace Sweep

def knows (w : Sweep) (s : State) : Bool := w.discovered.any (·.1 == s)

def follow (d : Direction) (w : Sweep) (a : Arc) : Sweep :=
  if w.knows (d.far a) then { w with chords := w.chords ++ [a] }
  else { w with discovered := w.discovered ++ [(d.far a, some a)] }

def round (ts : TransitionSystem) (d : Direction) (w : Sweep) (k : Nat) : Sweep :=
  match w.discovered[k]? with
  | none => w
  | some (s, _) => (d.edges ts s).foldl (follow d) w

/-- A whole search: no more states can be found than there are. -/
def all (ts : TransitionSystem) (d : Direction) : Option State → Sweep
  | none => {}
  | some s => (List.range ts.states.length).foldl (round ts d) { discovered := [(s, none)] }

end Sweep

structure SpanningTree where
  graph : TransitionSystem
  start : Option State
  direction : Direction
  start_mem : ∀ s ∈ start, s ∈ graph.states
  sweep : Sweep
  sweep_eq : sweep = Sweep.all graph direction start

namespace SpanningTree

/-- The tree from a given state or, if none is given, from the initial state. -/
def of (ts : TransitionSystem) (start? : Option State := none)
    (direction : Direction := .forward) : Except Error SpanningTree :=
  let start := start?.or ts.initial
  if known : ∀ s ∈ start, s ∈ ts.states then
    .ok ⟨ts, start, direction, known, Sweep.all ts direction start, rfl⟩
  else .error (.missing (start.getD ""))

def isReachable (t : SpanningTree) (s : State) : Bool := t.sweep.knows s

def reached (t : SpanningTree) : List State := t.sweep.discovered.map (·.1)

def chords (t : SpanningTree) : List Arc := t.sweep.chords

def treeEdges (t : SpanningTree) : List Arc := t.sweep.discovered.filterMap (·.2)

def unreachable (t : SpanningTree) : List State := t.graph.states.filter (!t.isReachable ·)

def reachable (t : SpanningTree) : List State := t.graph.states.filter t.isReachable

def predecessorEdge? (t : SpanningTree) (s : State) : Option Arc :=
  (t.sweep.discovered.find? (·.1 == s)).bind (·.2)

def predecessor? (t : SpanningTree) (s : State) : Option State :=
  (t.predecessorEdge? s).map t.direction.near

def climb (t : SpanningTree) : Nat → State → List Arc
  | 0, _ => []
  | n + 1, s =>
    match t.predecessorEdge? s with
    | none => []
    | some a => t.climb n (t.direction.near a) ++ [a]

def pathEdges (t : SpanningTree) (s : State) : List Arc := t.climb t.sweep.discovered.length s

def pathFromStart (t : SpanningTree) (s : State) : List State :=
  if t.isReachable s then (t.pathEdges s).map t.direction.near ++ [s] else []

def text (t : SpanningTree) : String :=
  s!"SpanningTree(start={Text.quotedOrNone t.start}, " ++
    s!"reversed={Text.truth (t.direction == .backward)}, chords={t.chords.length}, " ++
    s!"unreachable={t.unreachable.length})"

end SpanningTree

/-- A tree with a number of its own, by which the same tree is known again. -/
structure NumberedTree where
  tree : SpanningTree
  number : Nat

/-- Trees of one system, kept by their start and direction. A tree is used again as long as the
system has not been edited since the tree was built. -/
structure TreeCache where
  kept : List NumberedTree := []
  built : Nat := 0

namespace TreeCache

def find? (c : TreeCache) (start : Option State) (d : Direction) : Option NumberedTree :=
  c.kept.find? fun k => k.tree.start == start && k.tree.direction == d

def get (c : TreeCache) (ts : TransitionSystem) (start? : Option State := none)
    (d : Direction := .forward) : Except Error (TreeCache × NumberedTree) :=
  let start := start?.or ts.initial
  let current? := (c.find? start d).filter (·.tree.graph.version == ts.version)
  match current? with
  | some k => .ok (c, k)
  | none => do
    let fresh : NumberedTree := ⟨← SpanningTree.of ts start d, c.built⟩
    let others := c.kept.filter fun k => !(k.tree.start == start && k.tree.direction == d)
    return (⟨others ++ [fresh], c.built + 1⟩, fresh)

end TreeCache

end NetSynthesis
