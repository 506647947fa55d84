import NetSynthesis.TransitionSystem

/-! Isomorphism of deterministic transition systems. Their reachable parts are isomorphic if and
only if following equal labels from the initial states pairs the states one to one and paired states
enable the same events. Determinism leaves no choice, so one breadth-first walk decides; where it
fails it has the labels that led there as a witness. -/
namespace NetSynthesis.Isomorphism

/-- States paired with each other and a word that leads to both. -/
structure Pairing where
  state : State
  image : State
  trace : List Event
  deriving DecidableEq, Repr

inductive Verdict where
  | isomorphic (mapping : List (State × State))
  | different (witness : List Event)
  deriving DecidableEq, Repr

def Verdict.holds : Verdict → Bool
  | isomorphic _ => true
  | different _ => false

def Verdict.mapping : Verdict → List (State × State)
  | isomorphic m => m
  | different _ => []

def Verdict.witness? : Verdict → Option (List Event)
  | isomorphic _ => none
  | different w => some w

/-- Follows one arc of the left system from a pair. The target of the arc and its counterpart must
be paired with each other or both be new. -/
def follow (right : TransitionSystem) (pair : Pairing) (pairs : List Pairing) (a : Arc) :
    Except (List Event) (List Pairing) :=
  let trace := pair.trace ++ [a.label]
  match right.next? pair.image a.label with
  | none => .error trace
  | some image =>
    match pairs.find? (·.state == a.target) with
    | some known => if known.image = image then .ok pairs else .error trace
    | none =>
      if pairs.any (·.image == image) then .error trace
      else .ok (pairs ++ [⟨a.target, image, trace⟩])

def round (left right : TransitionSystem) (pairs : List Pairing) (k : Nat) :
    Except (List Event) (List Pairing) :=
  match pairs[k]? with
  | none => .ok pairs
  | some p =>
    if left.enabled p.state = right.enabled p.image then
      (left.outgoing p.state).foldlM (follow right p) pairs
    else .error p.trace

/-- The walk from a pair of states. Each state of the left system is paired at most once. -/
def walk (left right : TransitionSystem) (s t : State) : Except (List Event) (List Pairing) :=
  (List.range left.states.length).foldlM (round left right) [⟨s, t, []⟩]

end NetSynthesis.Isomorphism

namespace NetSynthesis

open Isomorphism in
/-- Whether the reachable parts of two systems are isomorphic. Two systems without states are. -/
def isomorphism (left right : TransitionSystem) : Except Error Verdict := do
  left.checkDeterministic
  right.checkDeterministic
  match left.initial, right.initial with
  | some s, some t =>
    match walk left right s t with
    | .ok pairs => return .isomorphic (pairs.map fun p => (p.state, p.image))
    | .error witness => return .different witness
  | none, none => return .isomorphic []
  | _, _ => return .different []

end NetSynthesis
