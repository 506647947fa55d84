import NetSynthesis.Net

/-! Registries of named checks on nets. Checks run in the order of registration. Every violation
is handed to all handlers; what they make of it is the checker's record, and a handler that fails
leaves the record as it was. -/
namespace NetSynthesis

inductive Severity where
  /-- Suspicious, but the net can be used. -/
  | warning
  /-- The net breaks a guarantee. -/
  | error
  deriving DecidableEq, Repr

def Severity.name : Severity → String
  | warning => "warning"
  | error => "error"

def Severity.parse (name : String) : Except Error Severity :=
  if name = "warning" then .ok .warning
  else if name = "error" then .ok .error
  else .error (.unknownName name "ViolationSeverity")

structure Check where
  name : String
  condition : Net → Except Error Bool
  severity : Severity := .error
  message : String
  enabled : Bool := true

structure Violation where
  check : String
  severity : Severity
  message : String
  net : String
  deriving DecidableEq, Repr

structure Report where
  net : String
  checked : List String := []
  violations : List Violation := []
  deriving DecidableEq, Repr

namespace Report

def errors (r : Report) : List String :=
  (r.violations.filter (·.severity = .error)).map (·.check)

def violated (r : Report) : List String := r.violations.map (·.check)

def isConsistent (r : Report) : Bool := r.errors.isEmpty

def raise (r : Report) : Except Error Unit :=
  if r.isConsistent then .ok () else .error (.inconsistent r.net r.errors)

end Report

abbrev Handler (ρ : Type) := Violation → ρ → Option ρ

structure Checker (ρ : Type) where
  name : String := "default"
  checks : List Check := []
  handlers : List (Handler ρ) := []
  record : ρ
  checkCount : Nat := 0
  violationCount : Nat := 0

namespace Checker

variable {ρ : Type}

def names (c : Checker ρ) : List String := c.checks.map (·.name)

/-- A new check at the end, or in the place of the one with its name. -/
def register (c : Checker ρ) (check : Check) : Checker ρ :=
  if c.names.contains check.name then
    { c with checks := c.checks.map fun old => if old.name = check.name then check else old }
  else { c with checks := c.checks ++ [check] }

def defaultMessage (name : String) : String := s!"Check '{name}' failed"

def unregister (c : Checker ρ) (name : String) : Checker ρ × Bool :=
  ({ c with checks := c.checks.filter (·.name != name) }, c.names.contains name)

def setEnabled (c : Checker ρ) (name : String) (enabled : Bool) : Checker ρ :=
  { c with checks := c.checks.map fun k => if k.name = name then { k with enabled } else k }

def onViolation (c : Checker ρ) (h : Handler ρ) : Checker ρ :=
  { c with handlers := c.handlers ++ [h] }

def handle (c : Checker ρ) (v : Violation) : Checker ρ :=
  { c with
    violationCount := c.violationCount + 1
    record := c.handlers.foldl (fun record h => (h v record).getD record) c.record }

/-- Runs one check. A check that is switched off passes, and one whose condition fails to answer
has still been counted. -/
def check (c : Checker ρ) (name : String) (net : Net) :
    Checker ρ × Except Error (Option Violation) :=
  match c.checks.find? (·.name == name) with
  | none => (c, .error (.unknownCheck name))
  | some k =>
    let c := { c with checkCount := c.checkCount + 1 }
    match if k.enabled then k.condition net else .ok true with
    | .error e => (c, .error e)
    | .ok true => (c, .ok none)
    | .ok false =>
      let v : Violation := ⟨name, k.severity, k.message, net.name⟩
      (c.handle v, .ok (some v))

def checkNames (net : Net) : List String → Checker ρ → Report → Checker ρ × Except Error Report
  | [], c, r => (c, .ok r)
  | name :: rest, c, r =>
    match c.check name net with
    | (c, .error e) => (c, .error e)
    | (c, .ok v) => checkNames net rest c
      { r with checked := r.checked ++ [name], violations := r.violations ++ v.toList }

def checkAll (c : Checker ρ) (net : Net) : Checker ρ × Except Error Report :=
  checkNames net c.names c { net := net.name }

end Checker

end NetSynthesis
