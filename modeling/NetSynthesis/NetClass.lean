import NetSynthesis.Error
import NetSynthesis.Text.Blank
import NetSynthesis.Text.DecimalDigit
import NetSynthesis.Text.LowerCase

/-! Classes of Petri nets: the properties that a net is asked to have, and their names as text. -/
namespace NetSynthesis

structure NetClass where
  /-- No transition both takes from and puts on a place. -/
  pure : Bool := false
  /-- All arcs have weight one. -/
  plain : Bool := false
  /-- The most tokens on a place. -/
  bound : Option Nat := none
  /-- Plain, and every place has at most one input and one output. -/
  tNet : Bool := false
  /-- Every place has at most one output. -/
  outputNonbranching : Bool := false
  /-- A place with several outputs gives tokens back to all of them. -/
  conflictFree : Bool := false
  bound_pos : ∀ k ∈ bound, 0 < k := by simp
  deriving DecidableEq

namespace NetClass

def all : NetClass := {}

def withBound (c : NetClass) (k : Int) : Except Error NetClass :=
  if positive : 0 < k then
    .ok { c with bound := some k.toNat, bound_pos := by simp; omega }
  else .error (.boundNotPositive k)

def withPure (c : NetClass) (pure : Bool) : NetClass := { c with pure }

def withPlain (c : NetClass) (plain : Bool) : NetClass := { c with plain }

def isSafe (c : NetClass) : Bool := c.bound == some 1

def isEmpty (c : NetClass) : Bool := c == all

def isStructural (c : NetClass) : Bool := c.tNet || c.outputNonbranching || c.conflictFree

/-! ### Names -/

def isSeparator (c : Char) : Bool := c = ',' || Text.isBlank c

/-- The pieces of a text between separators, empty ones included. -/
def pieces : List Char → List (List Char)
  | [] => [[]]
  | c :: rest =>
    if isSeparator c then [] :: pieces rest
    else match pieces rest with
      | [] => [[c]]
      | p :: ps => (c :: p) :: ps

def names (text : List Char) : List (List Char) := (pieces text).filter (!·.isEmpty)

/-- The number in a name such as `3-bounded`. -/
def boundName? (name : List Char) : Option Nat :=
  let (digits, rest) := name.span (Text.digitValue? · |>.isSome)
  if rest = "-bounded".toList then Text.decimal? digits else none

def addName (c : NetClass) (name : List Char) : Except Error NetClass :=
  let word := String.ofList name
  if word = "none" then .ok c
  else if word = "safe" then c.withBound 1
  else if word = "pure" then .ok { c with pure := true }
  else if word = "plain" then .ok { c with plain := true }
  else if word = "tnet" || word = "t-net" then .ok { c with tNet := true }
  else if word = "output-nonbranching" || word = "on" then
    .ok { c with outputNonbranching := true }
  else if word = "conflict-free" || word = "cf" then .ok { c with conflictFree := true }
  else match boundName? name with
    | some k => c.withBound k
    | none => .error (.unknownProperty word)

/-- The class with the given names, in upper or lower case; of several bounds the last counts. -/
def parse (text : String) : Except Error NetClass :=
  (names (Text.lower text.toList)).foldlM addName {}

def boundText (k : Nat) : String := if k = 1 then "safe" else s!"{k}-bounded"

def textNames (c : NetClass) : List String :=
  c.bound.toList.map boundText ++ (if c.pure then ["pure"] else []) ++
    (if c.plain then ["plain"] else []) ++ (if c.tNet then ["tnet"] else []) ++
    (if c.outputNonbranching then ["output-nonbranching"] else []) ++
    (if c.conflictFree then ["conflict-free"] else [])

def text (c : NetClass) : String := "[" ++ ", ".intercalate c.textNames ++ "]"

end NetClass

end NetSynthesis
