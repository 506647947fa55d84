import NetSynthesis.EquationSystem
import NetSynthesis.Frame
import NetSynthesis.Region

/-! The tokens that regions have in the states of a transition system. A region is valid if it can
be a place: every reachable state has enough tokens for the arcs that leave it, and every arc
changes the tokens by the effect of its event. -/
namespace NetSynthesis

/-- An event by its name or by its position, which counts from the end if it is negative. -/
inductive EventRef where
  | name (e : Event)
  | position (i : Int)
  deriving DecidableEq, Repr

namespace Frame

/-- A basis of the effects that give every reachable state one number of tokens, whichever path
leads to it, as pure regions without tokens. -/
def basis (f : Frame) : List (Region f.size) :=
  (KernelBasis.of f.size (f.tree.chords.map f.edgeVector)).map (Region.ofEffect f.size ·)

def addChord (f : Frame) (found : EquationSystem × ParikhMemo) (chord : Arc) :
    Except Error (EquationSystem × ParikhMemo) := do
  let (system, memo) := found
  let (v, memo) ← memo.edge f.tree chord
  if v.isEmpty then throw (.unreachableChord chord.target chord.text)
  return (← system.add v, memo)

/-- The same basis, from vectors that are computed when they are needed and remembered. -/
def basis? (f : Frame) (memo : ParikhMemo := []) :
    Except Error (List (Region f.size) × ParikhMemo) := do
  let (system, memo) ← f.tree.chords.foldlM f.addChord (← EquationSystem.ofSize f.size, memo)
  return (← system.basis.mapM (Region.ofVector f.events ·), memo)

def tokens (f : Frame) (r : Region f.size) (s : State) : Int := r.tokensAfter (f.vector s)

def marking (f : Frame) (r : Region f.size) (s : State) : Except Error Int :=
  (f.parikh s).map r.tokensAfter

def weightOf (f : Frame) (r : Region f.size) (e : Event) : Weight :=
  ((f.eventIndex? e).map r.weightAt).getD {}

def weight (f : Frame) (r : Region f.size) : EventRef → Except Error Weight
  | .name e =>
    match f.eventIndex? e with
    | some i => .ok (r.weightAt i)
    | none => .error (.unknownEvent e)
  | .position i =>
    let k := if i < 0 then i + f.size else i
    if 0 ≤ k ∧ k < f.size then .ok (r.weightAt k.toNat) else .error .outOfRange

/-- The least number of initial tokens, not below zero, with which all reachable states have
enough tokens. -/
def normalMarking (f : Frame) (r : Region f.size) : Int :=
  f.table.foldl (fun least (s, v) =>
    let effect := r.effect.dot v
    (f.graph.outgoing s).foldl (fun least a => max least ((f.weightOf r a.label).backward - effect))
      (max least (-effect))) 0

def withNormalMarking (f : Frame) (r : Region f.size) : Region f.size :=
  r.withInitial (f.normalMarking r)

def isValid (f : Frame) (r : Region f.size) : Bool :=
  0 ≤ r.initial && f.reachable.all fun s =>
    0 ≤ f.tokens r s && (f.graph.outgoing s).all fun a =>
      (f.weightOf r a.label).backward ≤ f.tokens r s &&
        f.tokens r a.target == f.tokens r s + (f.weightOf r a.label).effect

/-- The most tokens in a reachable state; without states the initial ones. -/
def bound (f : Frame) (r : Region f.size) : Int :=
  ((f.reachable.map (f.tokens r)).max?).getD r.initial

/-! ### Separation -/

/-- The region has different numbers of tokens in two states. Unreachable states have none. -/
def separates (f : Frame) (r : Region f.size) (s t : State) : Bool :=
  f.isReachable s && f.isReachable t && f.tokens r s != f.tokens r t

def disables (f : Frame) (r : Region f.size) (s : State) (e : Event) : Bool :=
  f.isReachable s && f.tokens r s < (f.weightOf r e).backward

def disables? (f : Frame) (r : Region f.size) (s : State) (e : EventRef) : Except Error Bool :=
  if f.isReachable s then (f.weight r e).map fun w => f.tokens r s < w.backward
  else .ok false

end Frame

end NetSynthesis
