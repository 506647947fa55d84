import NetSynthesis.TransitionSystem

/-! The limited unfolding of a deterministic transition system: the tree of its simple paths, in
which an arc back to a state on the current path is kept as a loop and every other arc leads to a
fresh copy of its target. The walk is a depth-first search with an explicit stack. -/
namespace NetSynthesis

/-- An unfolded system and the state that each of its states is a copy of. -/
structure Unfolding where
  system : TransitionSystem
  copyOf : List (State × State) := []
  deriving DecidableEq, Repr

namespace Unfolding

/-- A search under way: the states on the current path, the last one first, with the arcs still
to follow; the copies of exactly these states; and what has been unfolded so far. -/
structure Walk where
  stack : List (State × List Arc) := []
  onPath : List (State × State) := []
  result : Unfolding
  deriving DecidableEq, Repr

namespace Walk

def enter (ts : TransitionSystem) (w : Walk) (s : State) : Except Error (Walk × State) := do
  let (grown, copy) ← w.result.system.addState
  return (⟨(s, ts.outgoing s) :: w.stack, (s, copy) :: w.onPath,
    ⟨grown, w.result.copyOf ++ [(copy, s)]⟩⟩, copy)

def addArc (w : Walk) (a : Arc) : Except Error Walk := do
  let grown ← w.result.system.addArc a
  return { w with result.system := grown }

/-- Follows the next arc at the end of the path, or leaves that state if there is none. -/
def step (ts : TransitionSystem) (w : Walk) : Except Error Walk :=
  match w.stack with
  | [] => return w
  | (s, []) :: rest => return { w with stack := rest, onPath := w.onPath.filter (·.1 != s) }
  | (s, a :: pending) :: rest =>
    match w.onPath.lookup s with
    | none => .error (.missing s)
    | some source => do
      let w := { w with stack := (s, pending) :: rest }
      let (w, target) ← match w.onPath.lookup a.target with
        | some copy => pure (w, copy)
        | none => w.enter ts a.target
      w.addArc ⟨source, a.label, target, a.location⟩

def run (ts : TransitionSystem) : Nat → Walk → Except Error Walk
  | 0, w => return w
  | n + 1, w => if w.stack.isEmpty then return w else (w.step ts).bind (run ts n)

end Walk

/-- Enough steps for a stay at one state when at most `free` states are off the path and at most
`arcs` arcs leave a state: each arc and the leaving take a step, and each arc may begin a stay. -/
def steps (arcs : Nat) : Nat → Nat
  | 0 => arcs + 1
  | free + 1 => arcs + 1 + arcs * steps arcs free

end Unfolding

open Unfolding in
/-- The limited unfolding. Its alphabet is that of the system. -/
def unfolding (ts : TransitionSystem) : Except Error Unfolding := do
  ts.checkDeterministic
  let named : TransitionSystem := { name := s!"Limited unfolding of {ts.name}" }
  let blank : Unfolding := { system := ts.alphabet.foldl (·.addEvent ·) named }
  match ts.initial with
  | none => return blank
  | some s =>
    let (w, first) ← Walk.enter ts { result := blank } s
    let rooted ← w.result.system.setInitial first
    let w ← Walk.run ts (steps ts.arcs.length ts.states.length)
      { w with result.system := rooted }
    return w.result

end NetSynthesis
