import NetSynthesis.Options
import NetSynthesis.SeparationProgram

/-! Searches for regions that solve separation problems: to give two states different numbers of
tokens, or to give a state too few tokens for an event. Three searches look among regions listed
beforehand and the last solves integer programs. A search is refused if it might answer with regions
outside the class of nets asked for. -/
namespace NetSynthesis

inductive Strategy where
  /-- Basis regions, their negations, and sums and differences of two. -/
  | basicPure
  /-- The same with side conditions added for events. -/
  | basicImpure
  /-- All plain and pure regions. -/
  | plainPure
  /-- Regions as points of integer programs. -/
  | inequality
  deriving DecidableEq, Repr

/-- A search made ready for one frame. -/
inductive Search (f : Frame) where
  | basic (basis candidates : List (Region f.size)) (impure : Bool)
  | plain (candidates : List (Region f.size))
  | programs (goal : NetClass) (locations : Locations) (weightLimit : Nat)

namespace Strategy

def name : Strategy → String
  | basicPure => "BasicPureSeparation"
  | basicImpure => "BasicImpureSeparation"
  | plainPure => "PlainPureSeparation"
  | inequality => "InequalitySystemSeparation"

def restrictions (c : NetClass) : List String :=
  (if c.plain then ["plain"] else []) ++ (c.bound.toList.map fun k => s!"{k}-bounded") ++
    (if c.tNet then ["tnet"] else []) ++
    (if c.outputNonbranching then ["output-nonbranching"] else []) ++
    (if c.conflictFree then ["conflict-free"] else [])

def basicRefusal? (c : NetClass) (ls : Locations) (impure : Bool) : Option String :=
  if restrictions c != [] then some ("cannot guarantee " ++ ", ".intercalate (restrictions c))
  else if impure && c.pure then some "side conditions are not pure"
  else if ls.any (·.isSome) then some "cannot respect event locations"
  else none

/-- Why a strategy cannot be used, if so. -/
def refusal? (events : Nat) (c : NetClass) (ls : Locations) (o : Options) :
    Strategy → Option String
  | basicPure => basicRefusal? c ls false
  | basicImpure => basicRefusal? c ls true
  | plainPure =>
    if !c.plain then some "only useful for plain nets"
    else if c.isStructural then some "cannot guarantee structural restrictions"
    else if ls.any (·.isSome) then some "cannot respect event locations"
    else if o.plainLimit < events then
      some s!"{events} events exceed the enumeration limit of {o.plainLimit}"
    else none
  | inequality => none

end Strategy

namespace Frame

variable (f : Frame)

/-! ### Regions listed beforehand -/

/-- Sums and differences of two regions each, and their negations. -/
def pairCombinations : List (Region f.size) → List (Region f.size)
  | [] => []
  | r :: rest =>
    (rest.flatMap fun q => [1, -1].flatMap fun k =>
      let combined := (r.addScaled q k).makePure
      if combined.isTrivial then [] else [combined, combined.negate]) ++ pairCombinations rest

def basicCandidates (basis : List (Region f.size)) : List (Region f.size) :=
  (basis ++ basis.map (·.negate) ++ f.pairCombinations basis).map f.withNormalMarking

/-- All vectors of length `n` with entries -1, 0 and 1, in lexicographic order. -/
def signVectors : Nat → List IntVector
  | 0 => [[]]
  | n + 1 => [-1, 0, 1].flatMap fun x => (signVectors n).map (x :: ·)

/-- The plain and pure regions within a bound, those connected to fewer events first. -/
def plainCandidates (bound : Option Nat) : List (Region f.size) :=
  let cycles := f.tree.chords.map f.edgeVector
  let vectors := (signVectors f.size).filter fun v => cycles.all (v.dot · == 0)
  let sorted := (List.range f.size).flatMap fun k =>
    vectors.filter fun v => v.countP (· != 0) == k + 1
  (sorted.map fun v => f.withNormalMarking (.ofEffect f.size v)).filter fun r =>
    bound.all fun (k : Nat) => f.bound r ≤ k

/-! ### Side conditions -/

def enabling (e : Event) : List State :=
  ((f.graph.arcs.filter (·.label == e)).map (·.source)).filter f.isReachable

/-- Adds a side condition at an event, which takes and puts back as many tokens as there are in
every state that enables the event, if that is more than there are in the given state. -/
def withSideCondition? (r : Region f.size) (s : State) (e : Event) (i : Nat) :
    Option (Region f.size) :=
  let tokens := f.tokens r s
  let effect := (r.weightAt i).effect
  let most := max (((f.enabling e).map (f.tokens r)).min?.getD (tokens + 1)) (-effect)
  if most ≤ tokens then none
  else some (r.setWeight i ⟨most.toNat, (most + effect).toNat⟩)

/-! ### Integer programs -/

def accepts (c : NetClass) (ls : Locations) (r : Region f.size) : Except Error Bool :=
  if f.isValid r then f.satisfies? r c (some ls) else .ok false

/-- Solves a program; the region of the point must be accepted and solve the problem. -/
def solution? (solve : Solver) (c : NetClass) (ls : Locations)
    (solves : Region f.size → Bool) (p : IntegerProgram) : Except Error (Option (Region f.size)) :=
  match solve p with
  | none => .ok none
  | some x => do
    let r := SeparationProgram.regionOf f.size x
    if ← f.accepts c ls r then return if solves r then some r else none
    else return none

def firstSome {α β : Type} (g : α → Except Error (Option β)) : List α → Except Error (Option β)
  | [] => .ok none
  | a :: rest => do
    match ← g a with
    | some b => return some b
    | none => firstSome g rest

open SeparationProgram in
def differenceRows (difference : IntVector) : List Row :=
  [{ form := effectForm difference, lower := some 1 },
   { form := effectForm difference, upper := some (-1) }]

/-- The programs for a region that tells two states apart, for the events of each location in
turn. -/
def statePrograms (c : NetClass) (ls : Locations) (limit : Nat) (difference : IntVector) :
    Except Error (List IntegerProgram) := do
  let bases ← (SeparationProgram.consumerSets ls).mapM (f.solverProgram c limit)
  return bases.flatMap fun base => (differenceRows difference).map base.add

open SeparationProgram in
def disablingRow (s : State) (i : Nat) : Row :=
  { form := (markingForm (f.vector s)).add (entry (backward i) (-1)), upper := some (-1) }

/-- The events at the location of an event, without a location all events. -/
def sharers (ls : Locations) (location : Option Location) : Option (List Nat) :=
  location.map fun l => (List.range ls.length).filter fun k => ls[k]? == some (some l)

/-- The program for a region with too few tokens for the `i`-th event. Only events at the location
of this event take tokens. -/
def eventProgram (c : NetClass) (ls : Locations) (limit : Nat) (s : State) (i : Nat)
    (location : Option Location) : Except Error IntegerProgram := do
  return (← f.solverProgram c limit (sharers ls location)).add (f.disablingRow s i)

end Frame

namespace Search

variable {f : Frame}

def of (f : Frame) (basis : List (Region f.size)) (c : NetClass) (ls : Locations) (o : Options) :
    Strategy → Search f
  | .basicPure => .basic basis (f.basicCandidates basis) false
  | .basicImpure => .basic basis (f.basicCandidates basis) true
  | .plainPure => .plain (f.plainCandidates c.bound)
  | .inequality => .programs c ls o.weightLimit

def candidates : Search f → List (Region f.size)
  | basic _ candidates _ => candidates
  | plain candidates => candidates
  | programs .. => []

/-- The first of some regions that disables an event. The event must be known if there is a
region to look at. -/
def firstDisabling (regions : List (Region f.size)) (s : State) (e : Event) :
    Except Error (Option (Region f.size)) :=
  if f.isReachable s && !regions.isEmpty && (f.eventIndex? e).isNone then .error (.unknownEvent e)
  else .ok (regions.find? (f.disables · s e))

def separating (solve : Solver) (s t : State) : Search f → Except Error (Option (Region f.size))
  | basic basis _ _ => .ok ((basis.find? (f.separates · s t)).map f.withNormalMarking)
  | plain candidates => .ok (candidates.find? (f.separates · s t))
  | programs c ls limit =>
    let difference := (f.vector s).sub (f.vector t)
    if !(f.isReachable s && f.isReachable t) || difference.isZero then .ok none
    else do
      let programs ← f.statePrograms c ls limit difference
      Frame.firstSome (f.solution? solve c ls (f.separates · s t)) programs

def disabling (solve : Solver) (s : State) (e : Event) :
    Search f → Except Error (Option (Region f.size))
  | basic _ candidates impure => do
    match ← firstDisabling candidates s e, f.eventIndex? e with
    | some r, _ => return some r
    | none, some i =>
      if impure && f.isReachable s then
        return (candidates ++ [Region.trivial f.size]).findSome? (f.withSideCondition? · s e i)
      else return none
    | none, none => return none
  | plain candidates => firstDisabling candidates s e
  | programs c ls limit =>
    match f.eventIndex? e with
    | none => .ok none
    | some i =>
      if !f.isReachable s then .ok none
      else match ls[i]? with
        | none => .error .outOfRange
        | some location => do
          let program ← f.eventProgram c ls limit s i location
          f.solution? solve c ls (f.disables · s e) program

end Search

structure SearchChain (f : Frame) where
  searches : List (Strategy × Search f)

namespace SearchChain

variable {f : Frame}

/-- All strategies that are not refused, the cheap ones first. The last one never is. -/
def of (f : Frame) (basis : List (Region f.size)) (c : NetClass) (ls : Locations) (o : Options) :
    SearchChain f :=
  let usable := [Strategy.basicPure, .basicImpure, .plainPure, .inequality].filter fun s =>
    (s.refusal? f.size c ls o).isNone
  ⟨usable.map fun s => (s, .of f basis c ls o s)⟩

def separating (chain : SearchChain f) (solve : Solver) (s t : State) :
    Except Error (Option (Region f.size)) :=
  Frame.firstSome (fun (_, search) => search.separating solve s t) chain.searches

def disabling (chain : SearchChain f) (solve : Solver) (s : State) (e : Event) :
    Except Error (Option (Region f.size)) :=
  Frame.firstSome (fun (_, search) => search.disabling solve s e) chain.searches

def text (chain : SearchChain f) : String :=
  "SeparationChain(" ++ Text.quotedList (chain.searches.map fun (s, _) => s.name) ++ ")"

end SearchChain

end NetSynthesis
