import NetSynthesis.Dictionary

/-! A solver that runs, for trying out the synthesis on inputs. Where the optimum of the relaxation
has a variable with a fractional value, the variable is either at most the next smaller whole number
or at least the next greater one. Branches that cannot cost less than the best point found are left
out. The theory takes an arbitrary solver; of this one it knows no more than that its points are
feasible. That they are optimal and that it finds one whenever there is one is not proved. -/
namespace NetSynthesis.BranchAndBound

structure Incumbent where
  cost : Int
  point : IntVector
  deriving DecidableEq, Repr

def search (size : Nat) : Nat → Dictionary → Option Incumbent → Option Incumbent
  | 0, _, best => best
  | n + 1, d, best =>
    match d.optimum? with
    | none => best
    | some d =>
      if best.any (·.cost ≤ d.roundedCost) then best
      else match d.fractional? size with
        | none => some ⟨d.roundedCost, (List.range size).map d.floorOf⟩
        | some r =>
          let k := d.floorOf r.index
          search size n (d.atLeast r (k + 1)) (search size n (d.atMost r k) best)

/-- Each branch takes a value from the range of a variable. Variables without an upper bound are
branched on last. -/
def depth (p : IntegerProgram) : Nat :=
  (p.uppers.map fun u => (u.getD 0).toNat + 1).foldr (· + ·) 0

end NetSynthesis.BranchAndBound

namespace NetSynthesis

open BranchAndBound in
/-- The point that the search ends with, if it is feasible when looked at once more. -/
def branchAndBound : Solver := fun p =>
  ((search p.uppers.length (depth p + 1) (.of p) none).map (·.point)).filter p.feasible

theorem feasible_of_branchAndBound {p : IntegerProgram} {x : IntVector}
    (answer : branchAndBound p = some x) : p.feasible x = true :=
  (Option.filter_eq_some_iff.1 answer).2

theorem branchAndBound_inRange : branchAndBound.InRange := by
  intro p x answer
  have feasible := feasible_of_branchAndBound answer
  exact (Bool.and_eq_true_iff.1 feasible).1

end NetSynthesis
