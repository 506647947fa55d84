import NetSynthesis.NetProperties
import NetSynthesis.RegionMarking

/-! Nets made of regions: a transition for every event and a place for every region. -/
namespace NetSynthesis

/-- A net and the region behind each of its places. -/
structure Assembly (n : Nat) where
  net : Net
  places : List (String × Region n) := []

namespace Assembly

variable {n : Nat}

def addFlow (net : Net) (source target : String) (weight : Nat) : Except Error Net :=
  if weight = 0 then .ok net else (net.addFlow source target weight).map (·.1)

def connect (place : String) (net : Net) (entry : Event × Weight) : Except Error Net := do
  let net ← addFlow net place entry.1 entry.2.backward
  addFlow net entry.1 place entry.2.forward

def addRegion (events : List Event) (a : Assembly n) (r : Region n) :
    Except Error (Assembly n) := do
  let (net, place) ← a.net.addPlace none r.initial
  let net ← (events.zip r.weights).foldlM (connect place.id) net
  return ⟨net, a.places ++ [(place.id, r)]⟩

end Assembly

open Assembly in
def Frame.assemble (f : Frame) (regions : List (Region f.size)) :
    Except Error (Assembly f.size) := do
  let named : Net := { name := f.graph.name }
  let net ← f.events.foldlM (fun net e => (net.addTransition e).map (·.1)) named
  regions.foldlM (addRegion f.events) { net }

/-- Whether every place of a net gives tokens to events at one location only. -/
def Frame.isDistributed (f : Frame) (net : Net) : Except Error Bool := do
  let ls ← f.locations
  return net.isDistributed fun e => ((f.events.zip ls).lookup e).join

end NetSynthesis
