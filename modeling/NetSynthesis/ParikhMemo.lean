import NetSynthesis.IntVector
import NetSynthesis.SpanningTree

/-! Parikh vectors of the tree paths to states, which count how often each event occurs on a path.
They are computed when asked for and remembered for all states on the path. -/
namespace NetSynthesis

def IntVector.single (events : List Event) (e : Event) : IntVector :=
  events.map fun other => if other = e then 1 else 0

def IntVector.count (events : List Event) (arcs : List Arc) : IntVector :=
  events.map fun e => (arcs.countP (·.label == e) : Nat)

/-- Vectors of states asked for so far and of the states on the paths to them. -/
abbrev ParikhMemo := List (State × IntVector)

namespace ParikhMemo

/-- Goes up to the nearest state whose vector is known, at most `n` edges, and then down again. -/
def climb (t : SpanningTree) (memo : ParikhMemo) :
    Nat → State → Except Error (IntVector × ParikhMemo)
  | n, s =>
    match memo.lookup s with
    | some v => .ok (v, memo)
    | none =>
      if t.start = some s then
        let v := IntVector.zero t.graph.alphabet.length
        .ok (v, memo ++ [(s, v)])
      else match t.predecessorEdge? s, n with
        | some a, n + 1 => do
          let (v, memo) ← climb t memo n a.source
          let w := v.add (.single t.graph.alphabet a.label)
          return (w, memo ++ [(s, w)])
        | _, _ => .error (.unreachable s)

def reaching (t : SpanningTree) (memo : ParikhMemo) (s : State) :
    Except Error (IntVector × ParikhMemo) :=
  climb t memo t.reached.length s

/-- The vector of the source of an arc and the arc, less that of the target. It is zero for tree
edges. An arc with an unreachable end has the empty vector. -/
def edge (t : SpanningTree) (memo : ParikhMemo) (a : Arc) :
    Except Error (IntVector × ParikhMemo) :=
  if !(t.isReachable a.source && t.isReachable a.target) then .ok ([], memo)
  else do
    let (source, memo) ← reaching t memo a.source
    let (target, memo) ← reaching t memo a.target
    if t.graph.alphabet.contains a.label then
      return ((source.add (.single t.graph.alphabet a.label)).sub target, memo)
    else throw (.missing a.label)

end ParikhMemo

/-! ### Questions in turn -/

inductive ParikhQuery where
  | state (s : State)
  | edge (a : Arc)
  deriving DecidableEq, Repr

namespace ParikhMemo

def ask (t : SpanningTree) (memo : ParikhMemo) : ParikhQuery → Except Error IntVector
  | .state s => (reaching t memo s).map (·.1)
  | .edge a => (edge t memo a).map (·.1)

/-- What is remembered after the vector of a state has been asked for. A failure leaves no trace. -/
def remember (t : SpanningTree) (memo : ParikhMemo) (s : State) : ParikhMemo :=
  match reaching t memo s with
  | .ok (_, memo) => memo
  | .error _ => memo

def after (t : SpanningTree) (memo : ParikhMemo) : ParikhQuery → ParikhMemo
  | .state s => remember t memo s
  | .edge a =>
    if t.isReachable a.source && t.isReachable a.target then
      remember t (remember t memo a.source) a.target
    else memo

def afterAll (t : SpanningTree) (memo : ParikhMemo) (queries : List ParikhQuery) : ParikhMemo :=
  queries.foldl (after t) memo

end ParikhMemo

end NetSynthesis
