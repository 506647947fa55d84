import NetSynthesis.NetClass
import NetSynthesis.RegionMarking

/-! Whether the place that a region becomes is allowed in a class of nets, and whether it respects
the locations of events. -/
namespace NetSynthesis

/-- Locations of the events in their order; a list without entries says nothing. -/
abbrev Locations := List (Option Location)

namespace Frame

def inClass (f : Frame) (r : Region f.size) (c : NetClass) : Bool :=
  (!c.pure || r.isPure) &&
  (!(c.plain || c.tNet) || r.isPlain) &&
  (c.bound.all fun (k : Nat) => f.bound r ≤ k) &&
  (!c.tNet || (r.consumers.length ≤ 1 && r.producers.length ≤ 1)) &&
  (!c.outputNonbranching || r.consumers.length ≤ 1) &&
  (!c.conflictFree || r.consumers.length ≤ 1 || r.consumers.all r.producers.contains)

/-- Events that take tokens are all at one location. -/
def isLocal {n : Nat} (r : Region n) (ls : Locations) : Bool :=
  let used := r.consumers.map fun i => ls[i]?.getD none
  used.all fun l => used.all fun m => l == m

def satisfies (f : Frame) (r : Region f.size) (c : NetClass) (ls : Locations) : Bool :=
  f.inClass r c && isLocal r ls

/-- The same where a location for some consumer may be missing from the list. -/
def satisfies? (f : Frame) (r : Region f.size) (c : NetClass) (ls : Option Locations) :
    Except Error Bool :=
  if !f.inClass r c then .ok false
  else match ls with
    | none => .ok true
    | some ls =>
      if r.consumers.all (· < ls.length) then .ok (isLocal r ls) else .error .outOfRange

end Frame

end NetSynthesis
