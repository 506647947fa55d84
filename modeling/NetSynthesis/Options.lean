import NetSynthesis.Error

/-! Limits and switches of a synthesis. -/
namespace NetSynthesis

structure Options where
  /-- Stop at the first separation problem without a solution. -/
  quickFail : Bool := false
  /-- The heaviest arc that integer programs may use. -/
  weightLimit : Nat := 32
  /-- The largest alphabet whose plain regions are enumerated. -/
  plainLimit : Nat := 8
  /-- The most separation problems to look at. -/
  budget : Option Nat := none
  /-- Check a finished net against what it was made for. -/
  verify : Bool := true
  /-- The most markings to explore in that check. -/
  stateLimit : Int := 10000
  weightLimit_pos : 0 < weightLimit := by decide
  deriving DecidableEq

namespace Options

/-- Options from numbers that may be out of range. The weight limit is looked at first, then the
alphabet limit and then the budget. -/
def of (quickFail : Bool) (weightLimit plainLimit : Int) (budget : Option Int) (verify : Bool)
    (stateLimit : Int) : Except Error Options := do
  if positive : 0 < weightLimit then
    if plainLimit < 0 then throw (.plainLimitNegative plainLimit)
    match budget.filter (· < 0) with
    | some limit => throw (.budgetNegative limit)
    | none => pure ()
    return {
      quickFail, verify, stateLimit
      weightLimit := weightLimit.toNat
      plainLimit := plainLimit.toNat
      budget := budget.map Int.toNat
      weightLimit_pos := by omega }
  else throw (.weightLimitNotPositive weightLimit)

end Options

end NetSynthesis
