import NetSynthesis.Error
import NetSynthesis.FreshName

/-! Labelled transition systems with named states, an optional initial state and arcs that may
carry a location. States stay in the order of their creation and arcs in the order of their
insertion; the alphabet is sorted. A system holds every arc three times: in the list of all arcs,
at its source and at its target. `WellFormed` says that the copies agree. -/
namespace NetSynthesis

abbrev State := String
abbrev Event := String
abbrev Location := String

structure Arc where
  source : State
  label : Event
  target : State
  location : Option Location := none
  deriving DecidableEq, Repr

/-- Arcs are told apart by their ends and label; the location does not count. -/
def Arc.sameEdge (a b : Arc) : Bool :=
  a.source == b.source && a.label == b.label && a.target == b.target

def Arc.text (a : Arc) : String := s!"{a.source} --{a.label}--> {a.target}"

structure Incidence where
  state : State
  outgoing : List Arc := []
  incoming : List Arc := []
  deriving DecidableEq, Repr

structure TransitionSystem where
  name : String := ""
  initial : Option State := none
  incidences : List Incidence := []
  arcs : List Arc := []
  alphabet : List Event := []
  /-- The number of edits that changed the system. -/
  version : Nat := 0
  deriving DecidableEq, Repr

def insertSorted (e : String) : List String → List String
  | [] => [e]
  | x :: xs => if e = x then x :: xs else if e < x then e :: x :: xs else x :: insertSorted e xs

namespace TransitionSystem

def states (ts : TransitionSystem) : List State := ts.incidences.map (·.state)

def incidence? (ts : TransitionSystem) (s : State) : Option Incidence :=
  ts.incidences.find? (·.state == s)

/-- The arcs that leave a state; none leaves an unknown state. -/
def outgoing (ts : TransitionSystem) (s : State) : List Arc :=
  ((ts.incidence? s).map (·.outgoing)).getD []

def incoming (ts : TransitionSystem) (s : State) : List Arc :=
  ((ts.incidence? s).map (·.incoming)).getD []

/-! ### Edits -/

/-- A new state, with a generated name if none is given. The first state becomes initial. -/
def addState (ts : TransitionSystem) (name? : Option State := none) :
    Except Error (TransitionSystem × State) :=
  let s := name?.getD (freshName "s" ts.states.length ts.states)
  if ts.states.contains s then .error (.duplicateState s)
  else .ok ({ ts with
    initial := some (ts.initial.getD s)
    incidences := ts.incidences ++ [⟨s, [], []⟩]
    version := ts.version + 1 }, s)

/-- New states up to the first name that is taken already. -/
def addStates (ts : TransitionSystem) : List (Option State) → TransitionSystem × Except Error Unit
  | [] => (ts, .ok ())
  | name? :: rest =>
    match ts.addState name? with
    | .ok (grown, _) => grown.addStates rest
    | .error e => (ts, .error e)

/-- A new arc between existing states; its label joins the alphabet. -/
def addArc (ts : TransitionSystem) (a : Arc) : Except Error TransitionSystem :=
  if !ts.states.contains a.source then .error (.unknownState a.source)
  else if !ts.states.contains a.target then .error (.unknownState a.target)
  else if (ts.outgoing a.source).any a.sameEdge then
    .error (.duplicateArc a.source a.label a.target)
  else .ok { ts with
    incidences := ts.incidences.map fun i => { i with
      outgoing := if i.state = a.source then i.outgoing ++ [a] else i.outgoing
      incoming := if i.state = a.target then i.incoming ++ [a] else i.incoming }
    arcs := ts.arcs ++ [a]
    alphabet := insertSorted a.label ts.alphabet
    version := ts.version + 1 }

def addEvent (ts : TransitionSystem) (e : Event) : TransitionSystem :=
  { ts with alphabet := insertSorted e ts.alphabet, version := ts.version + 1 }

def setInitial (ts : TransitionSystem) (s : State) : Except Error TransitionSystem :=
  if ts.states.contains s then .ok { ts with initial := some s, version := ts.version + 1 }
  else .error (.unknownState s)

/-! ### Queries -/

/-- The entry of a state; an unknown state is a failed lookup. -/
def incidence (ts : TransitionSystem) (s : State) : Except Error Incidence :=
  match ts.incidence? s with
  | some i => .ok i
  | none => .error (.missing s)

def postset (ts : TransitionSystem) (s : State) : Except Error (List Arc) :=
  (ts.incidence s).map (·.outgoing)

def preset (ts : TransitionSystem) (s : State) : Except Error (List Arc) :=
  (ts.incidence s).map (·.incoming)

def next? (ts : TransitionSystem) (s : State) (e : Event) : Option State :=
  ((ts.outgoing s).find? (·.label == e)).map (·.target)

def successor (ts : TransitionSystem) (s : State) (e : Event) : Except Error (Option State) :=
  (ts.incidence s).map fun _ => ts.next? s e

def enabled (ts : TransitionSystem) (s : State) : List Event :=
  (ts.outgoing s).foldl (fun es a => insertSorted a.label es) []

/-- States found from the initial state, in breadth-first order. In round `k` the arcs of the
`k`-th state found are followed, so as many rounds as there are states are enough. -/
def reachable (ts : TransitionSystem) : List State :=
  match ts.initial with
  | none => []
  | some s =>
    (List.range ts.states.length).foldl (fun found k =>
      match found[k]? with
      | none => found
      | some t => (ts.outgoing t).foldl (fun found a =>
          if found.contains a.target then found else found ++ [a.target]) found) [s]

def isTotallyReachable (ts : TransitionSystem) : Bool :=
  ts.reachable.length == ts.states.length

def nondeterministicStates (ts : TransitionSystem) : List State :=
  (ts.incidences.filter fun i => !decide (i.outgoing.map (·.label)).Nodup).map (·.state)

def isDeterministic (ts : TransitionSystem) : Bool := ts.nondeterministicStates.isEmpty

def deadlocks (ts : TransitionSystem) : List State :=
  (ts.incidences.filter (·.outgoing.isEmpty)).map (·.state)

def checkDeterministic (ts : TransitionSystem) : Except Error Unit :=
  if ts.isDeterministic then .ok ()
  else .error (.nondeterministic ts.name ts.nondeterministicStates)

def checkInitial (ts : TransitionSystem) : Except Error Unit :=
  if ts.initial.isSome then .ok () else .error (.noInitialState ts.name)

/-! ### Whole systems -/

/-- The line `s0, s1, …` whose arcs carry the letters of a word in turn. -/
def ofWord (word : List Event) (name? : Option String := none) : Except Error TransitionSystem := do
  let (start, first) ← ({ name := name?.getD (String.join word) : TransitionSystem }).addState
    (some "s0")
  let (_, line) ← word.foldlM (fun (previous, ts) letter => do
    let (ts, current) ← ts.addState (some s!"s{ts.states.length}")
    let ts ← ts.addArc ⟨previous, letter, current, none⟩
    return (current, ts)) (first, start)
  return line

/-- The states of triples `(source, label, target)` in order of appearance, after the initial
state if one is given, and an arc for each triple. -/
def ofTriples (triples : List (State × Event × State)) (initial? : Option State := none)
    (name : String := "") : Except Error TransitionSystem := do
  let ensure (ts : TransitionSystem) (s : State) : Except Error TransitionSystem :=
    if ts.states.contains s then .ok ts else (ts.addState (some s)).map (·.1)
  let start ← match initial? with
    | none => pure { name }
    | some s => ensure { name } s
  triples.foldlM (fun ts (source, label, target) => do
    let ts ← ensure ts source
    let ts ← ensure ts target
    ts.addArc ⟨source, label, target, none⟩) start

/-! ### Agreement of the copies -/

/-- What every sequence of edits of an empty system keeps: states have different names, arcs join
states and are different edges, the copies of the arcs at the states are the arcs with that source
or target in their order, the alphabet is sorted and holds all labels, and a system has an initial
state as soon as it has states. -/
structure WellFormed (ts : TransitionSystem) : Prop where
  states_nodup : ts.states.Nodup
  arc_ends : ∀ a ∈ ts.arcs, a.source ∈ ts.states ∧ a.target ∈ ts.states
  arcs_differ : ts.arcs.Pairwise fun a b => a.sameEdge b = false
  outgoing_eq : ∀ i ∈ ts.incidences, i.outgoing = ts.arcs.filter (·.source == i.state)
  incoming_eq : ∀ i ∈ ts.incidences, i.incoming = ts.arcs.filter (·.target == i.state)
  alphabet_sorted : ts.alphabet.Pairwise (· < ·)
  labels_mem : ∀ a ∈ ts.arcs, a.label ∈ ts.alphabet
  initial_mem : ∀ s ∈ ts.initial, s ∈ ts.states
  initial_isSome : ts.initial = none → ts.states = []

end TransitionSystem

end NetSynthesis
