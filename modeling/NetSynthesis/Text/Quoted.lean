import NetSynthesis.Text.Printable

/-! Text in quotes, and lists and tuples of values, as messages show them. A text stands between
single quotes, or between double quotes if it holds a single quote and no double quote. The
backslash and the enclosing quote are escaped, and characters without a printed form are written
by their code points. -/
namespace NetSynthesis.Text

def hexadecimal (width n : Nat) : List Char :=
  let digits := Nat.toDigits 16 n
  List.replicate (width - digits.length) '0' ++ digits

def escaped (mark c : Char) : List Char :=
  if c = mark || c = '\\' then ['\\', c]
  else if c = '\n' then ['\\', 'n']
  else if c = '\r' then ['\\', 'r']
  else if c = '\t' then ['\\', 't']
  else if isPrintable c then [c]
  else if c.toNat < 0x100 then ['\\', 'x'] ++ hexadecimal 2 c.toNat
  else if c.toNat < 0x10000 then ['\\', 'u'] ++ hexadecimal 4 c.toNat
  else ['\\', 'U'] ++ hexadecimal 8 c.toNat

def quoteMark (text : List Char) : Char :=
  if text.contains '\'' && !text.contains '"' then '"' else '\''

def quoted (text : String) : String :=
  let mark := quoteMark text.toList
  String.ofList ([mark] ++ text.toList.flatMap (escaped mark) ++ [mark])

def quotedOrNone : Option String → String
  | none => "None"
  | some text => quoted text

def truth (b : Bool) : String := if b then "True" else "False"

def quotedList (texts : List String) : String :=
  "[" ++ ", ".intercalate (texts.map quoted) ++ "]"

/-- Whole numbers between parentheses; a single one is followed by a comma. -/
def tuple : List Int → String
  | [x] => "(" ++ toString x ++ ",)"
  | xs => "(" ++ ", ".intercalate (xs.map toString) ++ ")"

example : quoted "it's" = "\"it's\"" := by decide +kernel
example : quoted "a\u00a0'\"\n" = "'a\\xa0\\'\"\\n'" := by decide +kernel
example : quotedList ["a", "b"] = "['a', 'b']" := by decide +kernel
example : tuple [] = "()" ∧ tuple [-1] = "(-1,)" ∧ tuple [0, 1] = "(0, 1)" := by decide +kernel

end NetSynthesis.Text
