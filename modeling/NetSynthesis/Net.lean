import NetSynthesis.Error
import NetSynthesis.FreshName

/-! Place/transition nets with weighted arcs. A marking lists the tokens of the places in their
order. -/
namespace NetSynthesis

structure Place where
  id : String
  tokens : Nat
  deriving DecidableEq, Repr

structure Transition where
  id : String
  label : String
  deriving DecidableEq, Repr

structure Flow where
  source : String
  target : String
  weight : Nat
  deriving DecidableEq, Repr

structure Net where
  name : String := ""
  places : List Place := []
  transitions : List Transition := []
  flows : List Flow := []
  deriving DecidableEq, Repr

abbrev Marking := List Int

namespace Net

def hasPlace (net : Net) (id : String) : Bool := net.places.any (·.id == id)

def hasTransition (net : Net) (id : String) : Bool := net.transitions.any (·.id == id)

def hasNode (net : Net) (id : String) : Bool := net.hasPlace id || net.hasTransition id

/-! ### Edits -/

/-- A new place. A generated name differs from those of the places there are. -/
def addPlace (net : Net) (id? : Option String := none) (tokens : Int := 0) :
    Except Error (Net × Place) :=
  let id := id?.getD (freshName "p" net.places.length (net.places.map (·.id)))
  if net.hasNode id then .error (.duplicateNode id)
  else if tokens < 0 then .error (.negativeTokens tokens id)
  else
    let place := ⟨id, tokens.toNat⟩
    .ok ({ net with places := net.places ++ [place] }, place)

/-- A new transition, labelled by its name unless a label is given that is not empty. -/
def addTransition (net : Net) (id : String) (label? : Option String := none) :
    Except Error (Net × Transition) :=
  if net.hasNode id then .error (.duplicateNode id)
  else
    let transition := ⟨id, (label?.filter (!·.isEmpty)).getD id⟩
    .ok ({ net with transitions := net.transitions ++ [transition] }, transition)

def addFlow (net : Net) (source target : String) (weight : Int := 1) :
    Except Error (Net × Flow) :=
  if !net.hasNode source then .error (.unknownNode source)
  else if !net.hasNode target then .error (.unknownNode target)
  else if net.hasPlace source == net.hasPlace target then .error (.flowEnds source target)
  else if weight < 1 then .error (.flowWeight weight)
  else if net.flows.any fun f => f.source == source && f.target == target then
    .error (.duplicateFlow source target)
  else
    let flow := ⟨source, target, weight.toNat⟩
    .ok ({ net with flows := net.flows ++ [flow] }, flow)

/-! ### Queries -/

def place (net : Net) (id : String) : Except Error Place :=
  match net.places.find? (·.id == id) with
  | some p => .ok p
  | none => .error (.missing id)

def transition (net : Net) (id : String) : Except Error Transition :=
  match net.transitions.find? (·.id == id) with
  | some t => .ok t
  | none => .error (.missing id)

def weight (net : Net) (source target : String) : Nat :=
  ((net.flows.find? fun f => f.source == source && f.target == target).map (·.weight)).getD 0

def preset (net : Net) (node : String) : List String :=
  (net.flows.filter (·.target == node)).map (·.source)

def postset (net : Net) (node : String) : List String :=
  (net.flows.filter (·.source == node)).map (·.target)

def initialMarking (net : Net) : Marking := net.places.map fun p => (p.tokens : Int)

/-! ### Firing -/

def enables (net : Net) (m : Marking) (transition : String) : Bool :=
  (net.places.zip m).all fun (p, k) => (net.weight p.id transition : Int) ≤ k

/-- Whether a transition may fire. Entries beyond the places do not count. A missing entry
matters only if no place before it disables the transition. -/
def isEnabled (net : Net) (m : Marking) (transition : String) : Except Error Bool :=
  if !net.enables m transition then .ok false
  else if m.length < net.places.length then .error .outOfRange
  else .ok true

def after (net : Net) (m : Marking) (transition : String) : Marking :=
  net.places.zipWith
    (fun p k => k - net.weight p.id transition + net.weight transition p.id) m

def fire (net : Net) (m : Marking) (transition : String) : Except Error Marking := do
  if ← net.isEnabled m transition then return net.after m transition
  else throw (.disabled transition m)

def enabled (net : Net) (m : Marking) : Except Error (List String) :=
  (net.transitions.map (·.id)).filterM (net.isEnabled m)

/-- What edits of an empty net keep: nodes have different names, and there is at most one arc
from one node to another, which joins a place and a transition and has a positive weight. -/
structure WellFormed (net : Net) : Prop where
  nodes_nodup : (net.places.map (·.id) ++ net.transitions.map (·.id)).Nodup
  flow_ends : ∀ f ∈ net.flows, (net.hasPlace f.source = true ∧ net.hasTransition f.target = true) ∨
    (net.hasTransition f.source = true ∧ net.hasPlace f.target = true)
  flows_differ : (net.flows.map fun f => (f.source, f.target)).Nodup
  weight_pos : ∀ f ∈ net.flows, 0 < f.weight

end Net

end NetSynthesis
