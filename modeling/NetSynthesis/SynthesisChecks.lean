import NetSynthesis.Checker
import NetSynthesis.Isomorphism
import NetSynthesis.NetClass
import NetSynthesis.NetProperties

/-! The checks that a net made for a transition system has to pass. -/
namespace NetSynthesis

/-- The marking graph of the net is isomorphic to the system; a net without a graph fails. -/
def hasGraph (ts : TransitionSystem) (limit : Int) (net : Net) : Except Error Bool :=
  match MarkingGraph.of net limit with
  | .error _ => .ok false
  | .ok g => (isomorphism g.system ts).map (·.holds)

/-- No reachable marking has more than `k` tokens on a place; a net without a graph fails. -/
def staysBelow (k : Nat) (limit : Int) (net : Net) : Except Error Bool :=
  match net.isBounded k limit with
  | .error _ => .ok false
  | .ok answer => .ok answer

def classChecks (c : NetClass) (limit : Int) : List Check :=
  let check (name what : String) (condition : Net → Bool) : Check :=
    { name, condition := fun net => .ok (condition net), message := s!"Net is not {what}" }
  (if c.pure then [check "pure" "pure" (·.isPure)] else []) ++
  (if c.plain then [check "plain" "plain" (·.isPlain)] else []) ++
  (if c.tNet then [check "tnet" "a plain T-net" (·.isPlainTNet)] else []) ++
  (if c.outputNonbranching then
    [check "output-nonbranching" "output-nonbranching" (·.isOutputNonbranching)] else []) ++
  (if c.conflictFree then [check "conflict-free" "conflict-free" (·.isConflictFree)] else []) ++
  (c.bound.toList.map fun k =>
    { name := s!"{k}-bounded", condition := staysBelow k limit,
      message := s!"Net is not {k}-bounded" })

/-- A checker for the nets of a class made for a system, whose events may have locations. -/
def synthesisChecker {ρ : Type} (record : ρ) (ts : TransitionSystem) (c : NetClass)
    (locations : List (Event × Option Location) := []) (limit : Int := 10000)
    (isomorphic : Bool := true) : Checker ρ :=
  let name := if ts.name.isEmpty then "transition system" else ts.name
  { name := s!"synthesis of {name}"
    record
    checks := classChecks c limit ++
      (if isomorphic then
        [{ name := "isomorphic", condition := hasGraph ts limit,
           message := "Reachability graph is not isomorphic to the transition system" }]
      else []) ++
      (if locations.any (·.2.isSome) then
        [{ name := "distributed",
           condition := fun net => .ok (net.isDistributed fun e => (locations.lookup e).join),
           message := "Net is not a distributed implementation" }]
      else []) }

end NetSynthesis
