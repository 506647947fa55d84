import NetSynthesis.IntVector

/-! Integer programs: to find whole numbers from zero up to given bounds that satisfy linear
inequalities, with the least sum of some of them. A solver answers with such a point or with
none. -/
namespace NetSynthesis

structure Row where
  form : IntVector
  lower : Option Int := none
  upper : Option Int := none
  deriving DecidableEq, Repr

def Row.holds (r : Row) (x : IntVector) : Bool :=
  (r.lower.all (· ≤ r.form.dot x)) && (r.upper.all (r.form.dot x ≤ ·))

structure IntegerProgram where
  /-- The greatest value of each variable. -/
  uppers : List (Option Int)
  rows : List Row
  /-- The number of variables, from the first one on, whose sum is to be least. -/
  priced : Nat
  deriving DecidableEq, Repr

namespace IntegerProgram

def add (p : IntegerProgram) (r : Row) : IntegerProgram := { p with rows := p.rows ++ [r] }

def inRange (p : IntegerProgram) (x : IntVector) : Bool :=
  x.length == p.uppers.length &&
    (p.uppers.zip x).all fun (u, k) => 0 ≤ k && u.all (k ≤ ·)

def feasible (p : IntegerProgram) (x : IntVector) : Bool :=
  p.inRange x && p.rows.all (·.holds x)

def cost (p : IntegerProgram) (x : IntVector) : Int := IntVector.total (x.take p.priced)

def Optimal (p : IntegerProgram) (x : IntVector) : Prop :=
  p.feasible x = true ∧ ∀ y, p.feasible y = true → p.cost x ≤ p.cost y

end IntegerProgram

/-- Answers an integer program with a point, or with none. -/
abbrev Solver := IntegerProgram → Option IntVector

def Solver.InRange (solve : Solver) : Prop := ∀ p x, solve p = some x → p.inRange x = true

/-- The solver answers with an optimal point if there is a feasible one, and else with none. -/
structure Solver.Exact (solve : Solver) : Prop where
  optimal : ∀ p x, solve p = some x → p.Optimal x
  complete : ∀ p, solve p = none → ∀ x, p.feasible x = false

end NetSynthesis
