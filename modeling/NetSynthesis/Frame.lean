import NetSynthesis.ParikhMemo

/-! What regions of a transition system refer to: a spanning tree that is followed forward, the
order of the events, and the Parikh vectors of the tree paths. -/
namespace NetSynthesis

def parikhTable (t : SpanningTree) : List (State × IntVector) :=
  t.reachable.map fun s => (s, .count t.graph.alphabet (t.pathEdges s))

structure Frame where
  tree : SpanningTree
  forward : tree.direction = .forward
  table : List (State × IntVector)
  table_eq : table = parikhTable tree

namespace Frame

def of (t : SpanningTree) : Except Error Frame :=
  if forward : t.direction = .forward then .ok ⟨t, forward, parikhTable t, rfl⟩
  else .error .reversedTree

def graph (f : Frame) : TransitionSystem := f.tree.graph

def events (f : Frame) : List Event := f.graph.alphabet

abbrev size (f : Frame) : Nat := f.graph.alphabet.length

def eventIndex? (f : Frame) (e : Event) : Option Nat := f.events.findIdx? (· == e)

def reachable (f : Frame) : List State := f.table.map (·.1)

def isReachable (f : Frame) (s : State) : Bool := (f.table.lookup s).isSome

/-- The vector of the tree path to a state, with no entries if the state is unreachable. -/
def vector (f : Frame) (s : State) : IntVector := (f.table.lookup s).getD []

def parikh (f : Frame) (s : State) : Except Error IntVector :=
  match f.table.lookup s with
  | some v => .ok v
  | none => .error (.unreachable s)

/-- The vector that every region maps to zero: the path to the source of an arc and the arc, less
the path to its target. -/
def edgeVector (f : Frame) (a : Arc) : IntVector :=
  ((f.vector a.source).add (.single f.events a.label)).sub (f.vector a.target)

/-! ### Locations -/

def addLocation (found : List (Event × Location)) (a : Arc) :
    Except Error (List (Event × Location)) :=
  match a.location with
  | none => .ok found
  | some l =>
    match found.lookup a.label with
    | none => .ok (found ++ [(a.label, l)])
    | some old => if old = l then .ok found else .error (.conflictingLocations a.label old l)

/-- The location of every event. Either all events have one or none has, and one location for
all events is as good as none. -/
def locations (f : Frame) : Except Error (List (Option Location)) := do
  let found ← f.graph.arcs.foldlM addLocation []
  let unlocated := List.replicate f.size none
  match found with
  | [] => return unlocated
  | (_, first) :: _ =>
    let missing := f.events.filter fun e => (found.lookup e).isNone
    if !missing.isEmpty then throw (.partialLocations missing)
    else if found.all (·.2 == first) then return unlocated
    else return f.events.map fun e => found.lookup e

def text (f : Frame) : String :=
  s!"RegionUtility(ts={Text.quoted f.graph.name}, events={Text.quotedList f.events})"

end Frame

end NetSynthesis
