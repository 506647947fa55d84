import NetSynthesis.IntVector

/-! A basis of the integer solutions of homogeneous linear equations. Euclid's algorithm on one row
after the other brings the matrix of the coefficients to column echelon form, and the same
operations are made on a transform, which is the identity at first. The columns of the transform
that belong to columns of zeros are the basis. -/
namespace NetSynthesis.KernelBasis

/-- The first position with a nonzero value of least size, and that size. -/
def leastNonzero : List Int → Option (Nat × Nat)
  | [] => none
  | x :: xs =>
    match leastNonzero xs with
    | none => if x = 0 then none else some (0, x.natAbs)
    | some (i, m) => if x ≠ 0 ∧ x.natAbs ≤ m then some (0, x.natAbs) else some (i + 1, m)

def swapToFront {α : Type} : Nat → List α → List α
  | i + 1, u :: us =>
    match us[i]? with
    | some v => v :: us.set i u
    | none => u :: us
  | _, us => us

section Euclid

variable {α : Type} (value : α → Int) (clear : α → α → α)

/-- One round of Euclid's algorithm: brings a value of least size to the front and clears the others
with it. With at most one nonzero value it is the last round. -/
def round (xs : List α) : List α × Bool :=
  match leastNonzero (xs.map value) with
  | none => (xs, true)
  | some (i, _) =>
    match swapToFront i xs with
    | [] => ([], true)
    | lead :: rest =>
      if rest.all (value · == 0) then (lead :: rest, true)
      else (lead :: rest.map (clear lead), false)

def rounds : Nat → List α → List α
  | 0, xs => xs
  | n + 1, xs =>
    let (next, last) := round value clear xs
    if last then next else rounds n next

/-- The total size of the values. A round that is not the last lowers it. -/
def weight (xs : List α) : Nat := (xs.map fun x => (value x).natAbs).foldr (· + ·) 0

def euclid (xs : List α) : List α := rounds value clear (weight value xs + 1) xs

end Euclid

/-- A column of the matrix, and the column of the transform that goes with it. -/
structure Column where
  entries : IntVector
  vector : IntVector
  deriving DecidableEq, Repr

def Column.entry (row : Nat) (c : Column) : Int := c.entries[row]?.getD 0

def Column.clear (row : Nat) (lead c : Column) : Column :=
  if c.entry row = 0 then c
  else
    let quotient := (c.entry row).fdiv (lead.entry row)
    ⟨c.entries.sub (lead.entries.scale quotient), c.vector.sub (lead.vector.scale quotient)⟩

/-- A matrix and its transform. The columns before the pivot are finished. -/
structure Reduction where
  columns : List Column
  pivot : Nat := 0
  deriving DecidableEq, Repr

namespace Reduction

def start (n : Nat) (equations : List IntVector) : Reduction :=
  { columns := (List.range n).map fun i => ⟨equations.map (·[i]?.getD 0), IntVector.unit n i⟩ }

/-- Leaves at most one nonzero entry in a row from the pivot on, which is then passed. -/
def reduceRow (state : Reduction) (row : Nat) : Reduction :=
  if state.columns.length ≤ state.pivot then state
  else
    let rest := euclid (Column.entry row) (Column.clear row) (state.columns.drop state.pivot)
    { columns := state.columns.take state.pivot ++ rest
      pivot := if rest.head?.any (·.entry row != 0) then state.pivot + 1 else state.pivot }

def of (n : Nat) (equations : List IntVector) : Reduction :=
  (List.range equations.length).foldl reduceRow (start n equations)

def spanning (state : Reduction) : List IntVector :=
  (state.columns.drop state.pivot).map (·.vector)

end Reduction

def normalize (v : IntVector) : IntVector :=
  let divisor : Nat := v.foldl (fun g x => g.gcd x.natAbs) 0
  let reduced := v.map (· / (divisor : Int))
  if (reduced.find? (· != 0)).any (· < 0) then reduced.map (- ·) else reduced

/-- A basis of the vectors of length `n` at which all equations are zero. -/
def of (n : Nat) (equations : List IntVector) : List IntVector :=
  (Reduction.of n equations).spanning.map normalize

example : of 3 [[1, -1, 0]] = [[1, 1, 0], [0, 0, 1]] := by decide
example : of 2 [[4, 6], [2, 3]] = [[3, -2]] := by decide

end NetSynthesis.KernelBasis
