import NetSynthesis.Synthesis

/-! The search for words that are, or are not, the language of a net of some class. Words that
differ by a renaming of letters are taken for one; a normalized word stands for all of them. A word
can only be solvable if its suffixes are, and also its prefixes unless a bound is asked for, so that
longer words are made of solvable ones. -/
namespace NetSynthesis.WordSearch

abbrev Word := List Event

/-! ### Normalized words -/

/-- New names for letters, and the letters of the alphabet not used yet. -/
structure Renaming where
  names : List (Event × Event) := []
  unused : List Event

/-- The renamed letters of a word. New letters get names from the end of the word on. -/
def rename (alphabet : List Event) : Word → Option (Word × Renaming)
  | [] => some ([], { unused := alphabet })
  | letter :: rest => do
    let (done, r) ← rename alphabet rest
    match r.names.lookup letter, r.unused with
    | some name, _ => return (name :: done, r)
    | none, name :: unused => return (name :: done, ⟨r.names ++ [(letter, name)], unused⟩)
    | none, [] => none

/-- The alphabet in order; letters that occur twice are kept twice. -/
def sortedLetters (alphabet : List Event) : List Event :=
  alphabet.mergeSort fun a b => decide (a ≤ b)

/-- The representative of a word among all its renamings over an alphabet. -/
def normalize (word : Word) (alphabet : List Event) : Except Error Word :=
  match rename (sortedLetters alphabet) word with
  | some (renamed, _) => .ok renamed
  | none => .error (.tooManyLetters (String.join word))

/-! ### Solvability -/

def wordOptions : Options := { quickFail := true, verify := false }

/-- Whether a net of the class has the word and its prefixes as its language. -/
def isSolvable (solve : Solver) (word : Word) (c : NetClass) (o : Options := wordOptions) :
    Except Error Bool := do
  let line ← TransitionSystem.ofWord word
  match synthesizeLanguage solve line c o with
  | .ok ⟨_, run⟩ => return run.succeeded
  | .error failure => throw failure.error

/-! ### Search -/

inductive Wanted where
  | unsolvable | solvable | quiet
  deriving DecidableEq, Repr

namespace Wanted

def name : Wanted → String
  | unsolvable => "unsolvable"
  | solvable => "solvable"
  | quiet => "quiet"

def find? (name : String) : Option Wanted :=
  [unsolvable, solvable, quiet].find? fun w => w.name == name

def parse (name : String) : Except Error Wanted :=
  match find? name with
  | some w => .ok w
  | none => .error (.unknownName name "Operation")

end Wanted

structure Level where
  length : Nat
  solvable : Nat
  unsolvable : Nat
  deriving DecidableEq, Repr

structure Progress where
  /-- The solvable words of the current length. -/
  found : List Word := []
  /-- All words looked at, and whether they are solvable. -/
  seen : List (Word × Bool) := []
  levels : List Level := []
  deriving DecidableEq, Repr

/-- Looks at one word. Without a bound, the word without its last letter must be solvable. -/
def examine (solve : Solver) (c : NetClass) (letters : List Event) (previous : List Word)
    (p : Progress) (word : Word) : Except Error Progress := do
  let start ← normalize word.dropLast letters
  if c.bound.isSome || previous.contains start then
    let solvable ← isSolvable solve word c
    return { p with
      found := if solvable then p.found ++ [word] else p.found
      seen := p.seen ++ [(word, solvable)] }
  else return p

/-- The letters to put before a word: those that it has and the first one that it has not. -/
def extensions (letters : List Event) (word : Word) : List Event :=
  match letters with
  | [] => []
  | l :: rest => if word.contains l then l :: extensions rest word else [l]

def level (solve : Solver) (c : NetClass) (letters : List Event) (length : Nat)
    (previous : List Word) (p : Progress) : Except Error Progress := do
  let words := previous.flatMap fun word => (extensions letters word).map (· :: word)
  let before := p.seen.length
  let p ← words.foldlM (examine solve c letters previous) { p with found := [] }
  let solvable := p.found.length
  let unsolvable := p.seen.length - before - solvable
  return { p with levels := p.levels ++ [⟨length, solvable, unsolvable⟩] }

/-- Up to `n` lengths from the given one on, as long as there are solvable words to go on from. -/
def levels (solve : Solver) (c : NetClass) (letters : List Event) :
    Nat → Nat → Progress → Except Error Progress
  | 0, _, p => .ok p
  | n + 1, length, p =>
    if p.found.isEmpty then .ok p
    else do
      let p ← level solve c letters length p.found p
      levels solve c letters n (length + 1) p

structure Outcome where
  goal : NetClass
  letters : List Event
  wanted : Wanted
  seen : List (Word × Bool)
  levels : List Level

namespace Outcome

def solvable (o : Outcome) : List String :=
  if o.wanted = .solvable then (o.seen.filter (·.2)).map fun (w, _) => String.join w else []

def unsolvable (o : Outcome) : List String :=
  if o.wanted = .unsolvable then (o.seen.filter (!·.2)).map fun (w, _) => String.join w else []

end Outcome

/-- Without a greatest length the search ends when no word of some length is solvable. -/
def unlimited : Nat := Nat.pow 2 64

def search (solve : Solver) (c : NetClass) (alphabet : List Event) (wanted : Wanted := .quiet)
    (maxLength : Option Int := none) : Except Error Outcome := do
  let letters := alphabet.foldl (fun ls l => insertSorted l ls) []
  let most := (maxLength.map Int.toNat).getD unlimited
  let p ← levels solve c letters most 1 { found := [[]] }
  return ⟨c, letters, wanted, p.seen, p.levels⟩

def searchText (solve : Solver) (goal operation alphabet : String)
    (maxLength : Option Int := none) : Except Error Outcome :=
  match Wanted.find? operation with
  | none => .error (.unknownOperation operation)
  | some .quiet => .error .quietOperation
  | some wanted => do
    search solve (← NetClass.parse goal) (alphabet.toList.map String.singleton) wanted maxLength

end NetSynthesis.WordSearch
