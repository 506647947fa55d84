import NetSynthesis.DoublePrecision
import NetSynthesis.IntegerProgram
import NetSynthesis.RegionClass

/-! The integer programs whose points are regions. Variable 0 is the initial tokens, the next `n`
are what the events take, and the next `n` what they put. Then there are switches, which are zero or
one: for a pure region one per event; if inputs and outputs of places are restricted, one for taking
and one for putting per event; and, for a conflict-free region, one that allows several
consumers. -/
namespace NetSynthesis.SeparationProgram

def entry (i : Nat) (k : Int) : IntVector := List.replicate i 0 ++ [k]

def sumOf (forms : List IntVector) : IntVector := forms.foldl .add []

def effectForm (v : IntVector) : IntVector := 0 :: (v.scale (-1) ++ v)

def markingForm (v : IntVector) : IntVector := 1 :: (v.scale (-1) ++ v)

variable (n : Nat)

/-- The variable for what an event takes. -/
def backward (i : Nat) : Nat := 1 + i

def forward (i : Nat) : Nat := 1 + n + i

/-- The switch that lets an event take, and not put. -/
def takesOnly (i : Nat) : Nat := 1 + 2 * n + i

def switches (c : NetClass) : Nat := 1 + 2 * n + if c.pure then n else 0

def takes (c : NetClass) (i : Nat) : Nat := switches n c + 2 * i

def puts (c : NetClass) (i : Nat) : Nat := switches n c + 2 * i + 1

/-- The switch that allows several consumers, which then all put tokens back. -/
def givesBack (c : NetClass) : Nat := switches n c + 2 * n

def weightBound (c : NetClass) (limit : Nat) : Nat := if c.plain || c.tNet then 1 else limit

def purityRows (bound : Nat) : List Row :=
  (List.range n).flatMap fun i =>
    [{ form := (entry (backward i) 1).add (entry (takesOnly n i) (-bound)), upper := some 0 },
     { form := (entry (forward n i) 1).add (entry (takesOnly n i) bound), upper := some bound }]

def switchRows (bound weight switch : Nat) : List Row :=
  [{ form := (entry weight 1).add (entry switch (-bound)), upper := some 0 },
   { form := (entry weight 1).add (entry switch (-1)), lower := some 0 }]

def indicatorRows (c : NetClass) (bound : Nat) : List Row :=
  (List.range n).flatMap fun i =>
    switchRows bound (backward i) (takes n c i) ++ switchRows bound (forward n i) (puts n c i)

def consumerForm (c : NetClass) : IntVector :=
  sumOf ((List.range n).map fun i => entry (takes n c i) 1)

def producerForm (c : NetClass) : IntVector :=
  sumOf ((List.range n).map fun i => entry (puts n c i) 1)

def conflictRows (c : NetClass) : List Row :=
  { form := (consumerForm n c).add (entry (givesBack n c) (-n)), upper := some 1 } ::
    (List.range n).map fun i =>
      { form := sumOf [entry (takes n c i) 1, entry (puts n c i) (-1), entry (givesBack n c) 1],
        upper := some 1 }

def structuralRows (c : NetClass) (bound : Nat) : List Row :=
  if !c.isStructural then []
  else indicatorRows n c bound ++
    (if c.tNet || c.outputNonbranching then
      [{ form := consumerForm n c, upper := some 1 }] else []) ++
    (if c.tNet then [{ form := producerForm n c, upper := some 1 }] else []) ++
    (if c.conflictFree && 0 < n then conflictRows n c else [])

def switchCount (c : NetClass) : Nat :=
  (if c.pure then n else 0) + (if c.isStructural then 2 * n else 0) +
    if c.conflictFree && 0 < n then 1 else 0

end NetSynthesis.SeparationProgram

namespace NetSynthesis

/-- The most tokens in a state and the greatest weight of an arc. -/
structure ProgramBounds where
  tokens : Option Nat
  weight : Nat
  deriving DecidableEq, Repr

namespace ProgramBounds

def asked (c : NetClass) (limit : Nat) : ProgramBounds :=
  ⟨c.bound, SeparationProgram.weightBound c limit⟩

def rounded (c : NetClass) (limit : Nat) : Except Error ProgramBounds := do
  let tokens ← c.bound.mapM DoublePrecision.ofNat
  let weight ← DoublePrecision.ofNat (SeparationProgram.weightBound c limit)
  return ⟨tokens, weight⟩

end ProgramBounds

namespace Frame

variable (f : Frame) (c : NetClass) (limit : Nat) (consumers : Option (List Nat))

open SeparationProgram in
/-- The valid regions of a class within bounds, in which only some events take tokens if
`consumers` are given. The rows with switches have `heavy` for the greatest weight. -/
def programWithin (b : ProgramBounds) (heavy : Nat) : IntegerProgram :=
  let n := f.size
  let most := b.tokens.map fun (k : Nat) => (k : Int)
  { uppers := most ::
      (List.range n).map (fun i =>
        some (if consumers.all (·.contains i) then (b.weight : Int) else 0)) ++
      List.replicate n (some (b.weight : Int)) ++ List.replicate (switchCount n c) (some 1)
    rows :=
      (f.tree.chords.map fun a =>
        { form := effectForm (f.edgeVector a), lower := some 0, upper := some 0 }) ++
      (f.table.flatMap fun (s, v) =>
        { form := markingForm v, lower := some 0, upper := most } ::
          (f.graph.outgoing s).map fun a =>
            { form := (markingForm v).add
                (entry (backward ((f.eventIndex? a.label).getD 0)) (-1)),
              lower := some 0 }) ++
      (if c.pure then purityRows n heavy else []) ++ structuralRows n c heavy
    priced := 1 + 2 * n }

/-- A program as it is written. The bounds of variables and of tokens are in double precision, the
coefficients of switches are not yet. -/
def program : Except Error IntegerProgram := do
  let b ← ProgramBounds.rounded c limit
  return f.programWithin c consumers b (SeparationProgram.weightBound c limit)

/-- The program in the hands of a solver, for which all numbers are in double precision. What else
counts steps of a path or events, far less than `2 ^ 53`, needs no rounding. -/
def solverProgram : Except Error IntegerProgram := do
  let b ← ProgramBounds.rounded c limit
  return f.programWithin c consumers b b.weight

end Frame

namespace SeparationProgram

def regionOf (n : Nat) (x : IntVector) : Region n :=
  ⟨(List.range n).map fun i =>
      ⟨(x[backward i]?.getD 0).toNat, (x[forward n i]?.getD 0).toNat⟩, x.headD 0, by simp⟩

/-- The sets of events that may take tokens together, one for each location, in the order of
their first events. Without locations all events may. -/
def consumerSets (ls : Locations) : List (Option (List Nat)) :=
  if ls.all (·.isNone) then [none]
  else ls.eraseDups.map fun l => some ((List.range ls.length).filter fun i => ls[i]? == some l)

end SeparationProgram

end NetSynthesis
