import NetSynthesis.SpanningTree

/-! A transition system that is edited while spanning trees of it are asked for. An edit that fails
leaves the system as it is, but states that were added before one that could not be added stay. -/
namespace NetSynthesis

inductive Edit where
  | addState (name? : Option State)
  | addStates (names : List (Option State))
  | addArc (a : Arc)
  | addEvent (e : Event)
  | setInitial (s : State)
  deriving DecidableEq, Repr

namespace TransitionSystem

/-- The outcome of an edit that is made as a whole or not at all. -/
def commit (ts : TransitionSystem) :
    Except Error TransitionSystem → TransitionSystem × Except Error Unit
  | .ok grown => (grown, .ok ())
  | .error e => (ts, .error e)

def edit (ts : TransitionSystem) : Edit → TransitionSystem × Except Error Unit
  | .addState name? => ts.commit ((ts.addState name?).map (·.1))
  | .addStates names => ts.addStates names
  | .addArc a => ts.commit (ts.addArc a)
  | .addEvent e => (ts.addEvent e, .ok ())
  | .setInitial s => ts.commit (ts.setInitial s)

def afterEdits (ts : TransitionSystem) (edits : List Edit) : TransitionSystem :=
  edits.foldl (fun ts e => (ts.edit e).1) ts

/-- Whether an edit succeeds. Several states count as soon as one of them is added, and no states
do not count. -/
def accepts (ts : TransitionSystem) : Edit → Bool
  | .addStates names => ts.states.length < (ts.addStates names).1.states.length
  | e => (ts.edit e).2.isOk

end TransitionSystem

inductive TrackedStep where
  | edit (e : Edit)
  | tree (start? : Option State) (d : Direction)
  deriving DecidableEq, Repr

structure TrackedSystem where
  system : TransitionSystem
  cache : TreeCache := {}

namespace TrackedSystem

/-- The tree for a start and direction, which may be one that was asked for before. -/
def ask (σ : TrackedSystem) (start? : Option State) (d : Direction) : Except Error NumberedTree :=
  (σ.cache.get σ.system start? d).map (·.2)

def step (σ : TrackedSystem) : TrackedStep → TrackedSystem
  | .edit e => { σ with system := (σ.system.edit e).1 }
  | .tree start? d =>
    match σ.cache.get σ.system start? d with
    | .ok (cache, _) => { σ with cache }
    | .error _ => σ

def run (σ : TrackedSystem) (steps : List TrackedStep) : TrackedSystem := steps.foldl step σ

def edits (σ : TrackedSystem) : List TrackedStep → Nat
  | [] => 0
  | .edit e :: rest => (σ.system.accepts e).toNat + (σ.step (.edit e)).edits rest
  | .tree start? d :: rest => (σ.step (.tree start? d)).edits rest

end TrackedSystem

end NetSynthesis
