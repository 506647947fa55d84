import NetSynthesis.IntegerProgram

/-! Linear programs as dictionaries, and the dual simplex method on them. A dictionary writes some
variables, the basic ones, and the objective as affine forms in the others. All variables are at
least zero. The entries are whole numbers over a common denominator, and pivoting divides without
remainder. -/
namespace NetSynthesis

/-- The number of a basic variable and its form: the constant, then a coefficient for each
column. -/
structure DictionaryRow where
  index : Nat
  entries : IntVector
  deriving DecidableEq, Repr

structure Dictionary where
  denominator : Int := 1
  columns : List Nat
  rows : List DictionaryRow
  objective : IntVector
  /-- The least number that is not the number of a variable. -/
  next : Nat
  deriving DecidableEq, Repr

namespace Dictionary

def constant (entries : IntVector) : Int := entries.headD 0

def addRow (d : Dictionary) (entries : IntVector) : Dictionary :=
  { d with rows := d.rows ++ [⟨d.next, entries⟩], next := d.next + 1 }

/-- The forms that the bounds of a row require to be at least zero. -/
def rowForms (size : Nat) (r : Row) : List IntVector :=
  let form := r.form.add (IntVector.zero size)
  (r.lower.toList.map fun l => -l :: form) ++ r.upper.toList.map fun u => u :: form.scale (-1)

/-- The relaxation of a program to fractions, with all its variables in columns. As the objective
has no negative coefficient, this dictionary is where the dual simplex method can start. -/
def of (p : IntegerProgram) : Dictionary :=
  let size := p.uppers.length
  let bounds : List Row := p.uppers.zipIdx.filterMap fun (u, i) =>
    u.map fun u => { form := .unit size i, upper := some u }
  let start : Dictionary := {
    columns := List.range size
    rows := []
    objective := 0 :: (List.range size).map fun i => if i < p.priced then 1 else 0
    next := size }
  ((p.rows ++ bounds).flatMap (rowForms size)).foldl addRow start

/-! ### Pivoting -/

def leaving? (d : Dictionary) : Option DictionaryRow :=
  (d.rows.filter fun r => constant r.entries < 0).foldl (fun best r =>
    match best with
    | none => some r
    | some b => if r.index < b.index then some r else best) none

/-- A column that may enter: its position, the number of its variable, its coefficient in the
objective and in the leaving row. -/
structure Candidate where
  position : Nat
  index : Nat
  price : Int
  pivot : Int

def Candidate.before (a b : Candidate) : Bool :=
  let l := a.price * b.pivot
  let r := b.price * a.pivot
  l < r || (l == r && a.index < b.index)

/-- The column that keeps the objective without negative coefficients. -/
def entering? (d : Dictionary) (r : DictionaryRow) : Option Candidate :=
  let all : List Candidate := (d.columns.zip (d.objective.tail.zip r.entries.tail)).zipIdx.map
    fun ((v, price, pivot), k) => ⟨k, v, price, pivot⟩
  (all.filter fun c => 0 < c.pivot).foldl (fun best c =>
    match best with
    | none => some c
    | some b => if c.before b then some c else best) none

/-- A form after the variable of column `k` has been expressed by the pivot row. -/
def substitute (denominator : Int) (pivotRow : IntVector) (k : Nat) (entries : IntVector) :
    IntVector :=
  let p := pivotRow[k]?.getD 0
  let q := entries[k]?.getD 0
  (entries.zipWith (fun x y => (p * x - q * y) / denominator) pivotRow).set k q

def pivot (d : Dictionary) (r : DictionaryRow) (c : Candidate) : Dictionary :=
  let k := c.position + 1
  let change := substitute d.denominator r.entries k
  { denominator := c.pivot
    columns := d.columns.set c.position r.index
    rows := d.rows.map fun s =>
      if s.index = r.index then ⟨c.index, (s.entries.map (- ·)).set k d.denominator⟩
      else { s with entries := change s.entries }
    objective := change d.objective
    next := d.next }

def settle : Nat → Dictionary → Option Dictionary
  | 0, d => some d
  | n + 1, d =>
    match d.leaving? with
    | none => some d
    | some r =>
      match d.entering? r with
      | none => none
      | some c => settle n (d.pivot r c)

/-- No more pivots are needed than there are choices of basic variables. -/
def pivots (d : Dictionary) : Nat := Nat.pow 2 (d.rows.length + d.columns.length)

def optimum? (d : Dictionary) : Option Dictionary := settle d.pivots d

/-! ### Reading off values -/

/-- The least whole number that is not below the objective. -/
def roundedCost (d : Dictionary) : Int := -((-constant d.objective).fdiv d.denominator)

def floorOf (d : Dictionary) (v : Nat) : Int :=
  match d.rows.find? (·.index == v) with
  | some r => (constant r.entries).fdiv d.denominator
  | none => 0

def fractional? (d : Dictionary) (size : Nat) : Option DictionaryRow :=
  (d.rows.filter fun r => r.index < size && (constant r.entries).fmod d.denominator != 0).foldl
    (fun best r =>
      match best with
      | none => some r
      | some b => if b.index < r.index then some r else best) none

def atMost (d : Dictionary) (r : DictionaryRow) (k : Int) : Dictionary :=
  d.addRow ((IntVector.scale (-1) r.entries).add [k * d.denominator])

def atLeast (d : Dictionary) (r : DictionaryRow) (k : Int) : Dictionary :=
  d.addRow (r.entries.add [-(k * d.denominator)])

end Dictionary

end NetSynthesis
