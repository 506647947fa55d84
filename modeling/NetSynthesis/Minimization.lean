import NetSynthesis.RegionMarking

/-! Separation problems, which of them given regions leave unsolved, and the choice of few regions
that solve as many problems as all. -/
namespace NetSynthesis

inductive Problem where
  /-- To tell two states apart. -/
  | states (s t : State)
  /-- To disable an event in a state. -/
  | event (s : State) (e : Event)
  deriving DecidableEq, Repr

namespace Frame

variable (f : Frame)

def isDisabled (s : State) (e : Event) : Bool := (f.graph.next? s e).isNone

def pairs {α : Type} : List α → List (α × α)
  | [] => []
  | a :: rest => rest.map (a, ·) ++ pairs rest

def eventProblems : List (State × Event) :=
  f.reachable.flatMap fun s => (f.events.filter (f.isDisabled s)).map (s, ·)

def problems (stateSeparation : Bool) : List Problem :=
  (if stateSeparation then (pairs f.reachable).map fun (s, t) => .states s t else []) ++
    f.eventProblems.map fun (s, e) => .event s e

def solves (r : Region f.size) : Problem → Bool
  | .states s t => f.separates r s t
  | .event s e => f.disables r s e

/-! ### Unseparated states -/

def split (r : Region f.size) (block : List State) : List (List State) :=
  ((block.map (f.tokens r)).eraseDups.map fun k => block.filter (f.tokens r · == k)).filter
    (1 < ·.length)

def unseparatedBlocks (regions : List (Region f.size)) : List (List State) :=
  regions.foldl (fun blocks r => blocks.flatMap (f.split r))
    ([f.reachable].filter (1 < ·.length))

/-- The same groups, and all unreachable states as one more. -/
def unseparated (regions : List (Region f.size)) : List (List State) :=
  f.unseparatedBlocks regions ++ [f.tree.unreachable].filter (!·.isEmpty)

/-- Pairs of states that are not told apart: an unreachable state and any other, and then two
states of one group. -/
def statePairs (regions : List (Region f.size)) : List (State × State) :=
  let states := f.graph.states.zipIdx
  (states.flatMap fun (s, i) =>
    if f.isReachable s then []
    else (states.filter fun (t, j) => j != i && (f.isReachable t || i < j)).map fun (t, _) =>
      (s, t)) ++
  (f.unseparatedBlocks regions).flatMap pairs

/-! ### Choice of regions -/

def solvers (regions : List (Region f.size)) (p : Problem) : List Nat :=
  (regions.zipIdx.filter fun (r, _) => f.solves r p).map (·.2)

def choose (chosen solvers : List Nat) : List Nat :=
  match solvers with
  | [] => chosen
  | first :: _ => if solvers.any chosen.contains then chosen else chosen ++ [first]

/-- The positions of the regions that are kept: the only solvers of some problem, and then the
first solvers of problems that have none among them. -/
def chosenPositions (regions : List (Region f.size)) (stateSeparation : Bool) : List Nat :=
  let all := (f.problems stateSeparation).map (f.solvers regions)
  let required := (all.filter (·.length == 1)).flatten
  let chosen := all.foldl choose required
  (List.range regions.length).filter chosen.contains

def minimize (regions : List (Region f.size)) (stateSeparation : Bool) : List (Region f.size) :=
  (f.chosenPositions regions stateSeparation).filterMap (regions[·]?)

end Frame

end NetSynthesis
