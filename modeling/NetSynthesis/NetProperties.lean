import NetSynthesis.MarkingGraph

/-! Properties of nets: those of their arcs, bounds on the tokens of a place, and distribution
over locations. -/
namespace NetSynthesis.Net

def isPure (net : Net) : Bool :=
  net.transitions.all fun t => (net.preset t.id).all fun p => !(net.postset t.id).contains p

def isPlain (net : Net) : Bool := net.flows.all (·.weight == 1)

def isPlainTNet (net : Net) : Bool :=
  net.isPlain && net.places.all fun p =>
    (net.preset p.id).length ≤ 1 && (net.postset p.id).length ≤ 1

def isOutputNonbranching (net : Net) : Bool :=
  net.places.all fun p => (net.postset p.id).length ≤ 1

/-- A place with several outputs has all of them as inputs too. -/
def isConflictFree (net : Net) : Bool :=
  net.places.all fun p =>
    (net.postset p.id).length ≤ 1 || (net.postset p.id).all (net.preset p.id).contains

def bound (net : Net) (limit : Int := 10000) : Except Error Int :=
  (MarkingGraph.of net limit).map (·.maxTokens)

def isBounded (net : Net) (k : Int) (limit : Int := 10000) : Except Error Bool :=
  (net.bound limit).map (· ≤ k)

/-- No place has outputs at two locations. A label without a location is at none. -/
def isDistributed (net : Net) (location? : String → Option String) : Bool :=
  net.places.all fun p =>
    let outputs := net.transitions.filter fun t => (net.postset p.id).contains t.id
    let used := outputs.filterMap fun t => location? t.label
    used.all fun l => used.all fun r => l == r

end NetSynthesis.Net
