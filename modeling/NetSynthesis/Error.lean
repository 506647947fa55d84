import NetSynthesis.Text.Quoted

/-! Causes of failure. Each cause belongs to one kind, by which callers tell apart a wrong value,
a failed lookup and the failures that have a kind of their own, and has one message. -/
namespace NetSynthesis

inductive Error where
  -- wrong values
  | duplicateState (state : String)
  | duplicateArc (source label target : String)
  | noInitialState (system : String)
  | negativeSize (size : Int)
  | equationLength (got expected : Nat)
  | duplicateNode (node : String)
  | negativeTokens (tokens : Int) (place : String)
  | flowEnds (source target : String)
  | flowWeight (weight : Int)
  | duplicateFlow (source target : String)
  | disabled (transition : String) (marking : List Int)
  | tooManyMarkings (limit : Int)
  | unknownProperty (name : String)
  | boundNotPositive (bound : Int)
  | weightLimitNotPositive (limit : Int)
  | plainLimitNegative (limit : Int)
  | budgetNegative (limit : Int)
  | reversedTree
  | weightCount (expected : Nat)
  | negativeWeights (region : String)
  | foreignRegion
  | tooManyLetters (word : String)
  | unknownOperation (name : String)
  | quietOperation
  | unknownName (name kind : String)
  | refused (message : String)
  -- failed lookups
  | missing (key : String)
  | unknownState (state : String)
  | unknownNode (node : String)
  | unknownEvent (event : String)
  | unknownCheck (name : String)
  | outOfRange
  -- failures with a kind of their own
  | unreachable (state : String)
  | unreachableChord (state chord : String)
  | conflictingLocations (event first second : String)
  | partialLocations (events : List String)
  | nondeterministic (system : String) (states : List String)
  | unbounded (marking covered : List Int)
  | budgetExceeded (limit : Int)
  | inconsistent (net : String) (checks : List String)
  | doubleOverflow
  deriving DecidableEq, Repr

namespace Error

inductive Kind where
  | value | key | index | unreachable | missingLocation | nondeterministic | unbounded
  | budgetExceeded | inconsistent | overflow
  deriving DecidableEq, Repr

def kind : Error → Kind
  | missing _ | unknownState _ | unknownNode _ | unknownEvent _ | unknownCheck _ => .key
  | outOfRange => .index
  | unreachable _ | unreachableChord .. => .unreachable
  | conflictingLocations .. | partialLocations _ => .missingLocation
  | nondeterministic .. => .nondeterministic
  | unbounded .. => .unbounded
  | budgetExceeded _ => .budgetExceeded
  | inconsistent .. => .inconsistent
  | doubleOverflow => .overflow
  | _ => .value

open Text in
/-- What a caller is told. A position out of range has nothing to add to its kind. -/
def message : Error → String
  | duplicateState s => s!"State {s} already exists"
  | duplicateArc s l t => s!"Arc {s} --{l}--> {t} already exists"
  | noInitialState n => s!"Transition system '{n}' has no initial state"
  | negativeSize n => s!"Number of variables must be non-negative, got {n}"
  | equationLength got expected => s!"Equation has {got} coefficients, expected {expected}"
  | duplicateNode n => s!"Node {n} already exists"
  | negativeTokens k p => s!"Negative initial marking {k} for {p}"
  | flowEnds s t => s!"Flow {s} -> {t} must connect a place and a transition"
  | flowWeight w => s!"Flow weight must be positive, got {w}"
  | duplicateFlow s t => s!"Flow {s} -> {t} already exists"
  | disabled t m => s!"Transition {t} is not enabled in {tuple m}"
  | tooManyMarkings n => s!"More than {n} reachable markings"
  | unknownProperty p => s!"Unknown Petri net property '{p}'"
  | boundNotPositive k => s!"k must be positive for k-boundedness, got {k}"
  | weightLimitNotPositive n => s!"max_weight must be positive, got {n}"
  | plainLimitNegative n => s!"max_plain_events must be non-negative, got {n}"
  | budgetNegative n => s!"max_separation_problems must be non-negative, got {n}"
  | reversedTree => "Region computation needs a forward spanning tree"
  | weightCount n => s!"Region weights must have length {n}"
  | negativeWeights r => s!"Region weights must be non-negative: {r}"
  | foreignRegion => "Cannot combine regions of different RegionUtility instances"
  | tooManyLetters w => s!"Word {quoted w} has more letters than the alphabet"
  | unknownOperation o =>
    s!"Unknown operation '{o}', valid options are 'unsolvable' and 'solvable'"
  | quietOperation => "Operation 'quiet' reports no words"
  | unknownName n k => s!"{quoted n} is not a valid {k}"
  | refused m => m
  | missing k => k
  | unknownState s => s!"State {s} does not exist"
  | unknownNode n => s!"Node {n} does not exist"
  | unknownEvent e => s!"Unknown event '{e}'"
  | unknownCheck c => s!"Check '{c}' not registered"
  | outOfRange => ""
  | unreachable s => s!"State {s} is unreachable from the initial state"
  | unreachableChord _ c => s!"Chord {c} has an unreachable endpoint"
  | conflictingLocations e l r => s!"Event '{e}' has locations '{l}' and '{r}'"
  | partialLocations es =>
    "Trying to synthesize a Petri net where some events have a location and " ++
      s!"others do not ({quotedList es}). Either all or no event must have a location."
  | nondeterministic n [] => s!"Transition system '{n}' is non-deterministic"
  | nondeterministic n ss => s!"Transition system '{n}' is non-deterministic states={quotedList ss}"
  | unbounded m old => s!"Marking {tuple m} strictly covers reachable marking {tuple old}"
  | budgetExceeded n => s!"Examined more than {n} separation problems without finishing"
  | inconsistent n cs => s!"Net '{n}' violates " ++ ", ".intercalate cs
  | doubleOverflow => "int too large to convert to float"

end Error

end NetSynthesis
