import Mathlib.Data.List.Infix
import NetSynthesis.TransitionSystem

/-! Paths of arcs that visit no state twice. An arc at the end of such a path goes on to a state
that has not been visited, or back to one that has; the path that it leads to is a simple one again.
-/
namespace NetSynthesis

abbrev ArcPath := List Arc

namespace ArcPath

variable {root s : State} {p : ArcPath} {a : Arc}

def visits (root : State) (p : ArcPath) : List State := root :: p.map (·.target)

/-- The part of a path that ends with the first visit of a state. -/
def upTo (root : State) (p : ArcPath) (s : State) : ArcPath := p.take ((visits root p).idxOf s)

def follow (root : State) (p : ArcPath) (a : Arc) : ArcPath :=
  if a.target ∈ visits root p then upTo root p a.target else p ++ [a]

@[simp] theorem visits_snoc : visits root (p ++ [a]) = visits root p ++ [a.target] := by
  simp [visits]

@[simp] theorem length_visits : (visits root p).length = p.length + 1 := by simp [visits]

theorem upTo_prefix (root : State) (p : ArcPath) (s : State) : upTo root p s <+: p :=
  List.take_prefix _ _

@[simp] theorem upTo_nil : upTo root [] s = [] := List.take_nil

theorem upTo_snoc (on : s ∈ visits root p) : upTo root (p ++ [a]) s = upTo root p s := by
  have within : (visits root p).idxOf s ≤ p.length := by
    have := List.idxOf_lt_length_of_mem on
    rw [length_visits] at this
    omega
  rw [upTo, visits_snoc, List.idxOf_append_of_mem on, List.take_append_of_le_length within, upTo]

theorem upTo_last (off : a.target ∉ visits root p) : upTo root (p ++ [a]) a.target = p ++ [a] := by
  rw [upTo, visits_snoc, List.idxOf_append_of_notMem off, length_visits]
  exact List.take_of_length_le (by simp)

end ArcPath

open ArcPath

/-- A path of arcs from the root to a state that visits no state twice. -/
inductive TransitionSystem.SimplePath (ts : TransitionSystem) (root : State) :
    ArcPath → State → Prop
  | nil : SimplePath ts root [] root
  | snoc {p : ArcPath} {a : Arc} : SimplePath ts root p a.source → a ∈ ts.arcs →
      a.target ∉ visits root p → SimplePath ts root (p ++ [a]) a.target

namespace TransitionSystem.SimplePath

variable {ts : TransitionSystem} {root s t : State} {p : ArcPath} {a : Arc}

theorem getLast?_visits (path : ts.SimplePath root p s) :
    (visits root p).getLast? = some s := by
  cases path with
  | nil => rfl
  | snoc => simp

theorem end_unique (path : ts.SimplePath root p s) (other : ts.SimplePath root p t) : s = t :=
  Option.some.inj (path.getLast?_visits.symm.trans other.getLast?_visits)

/-- Up to each of its visits a simple path is a simple path. -/
theorem upTo (path : ts.SimplePath root p s) (on : t ∈ visits root p) :
    ts.SimplePath root (upTo root p t) t := by
  induction path with
  | nil =>
    obtain rfl : t = root := by simpa [visits] using on
    rw [upTo_nil]
    exact .nil
  | @snoc p a before arc off ih =>
    rw [visits_snoc] at on
    rcases List.mem_append.1 on with earlier | last
    · rw [upTo_snoc earlier]
      exact ih earlier
    · obtain rfl := List.mem_singleton.1 last
      rw [upTo_last off]
      exact .snoc before arc off

theorem follow (path : ts.SimplePath root p a.source) (arc : a ∈ ts.arcs) :
    ts.SimplePath root (follow root p a) a.target := by
  rw [ArcPath.follow]
  split
  · rename_i on
    exact path.upTo on
  · rename_i off
    exact .snoc path arc off

end TransitionSystem.SimplePath

end NetSynthesis
