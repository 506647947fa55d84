import NetSynthesis.DisjointSets

/-! Joined classes that are asked about while they grow. A query may shorten paths, so that the next
step finds another forest. -/
namespace NetSynthesis

/-- What is done with joined classes. To go through the classes is to ask for all of them. -/
inductive ClassStep (α : Type) where
  | join (a b : α)
  | classOf (a : α)
  | equivalent (a b : α)
  | classes
  | count
  deriving DecidableEq, Repr

inductive ClassAnswer (α : Type) where
  | members (c : List α)
  | truth (b : Bool)
  | groups (gs : List (List α))
  | number (n : Nat)
  deriving DecidableEq, Repr

def ClassStep.joined? {α : Type} : ClassStep α → Option (α × α)
  | .join a b => some (a, b)
  | _ => none

theorem ClassStep.eq_join {α : Type} {x : ClassStep α} {p : α × α} (joined : x.joined? = some p) :
    x = .join p.1 p.2 := by
  cases x with
  | join a b => rw [← Option.some.inj joined]
  | _ => simp [joined?] at joined

namespace DisjointSets

variable {α : Type} [DecidableEq α]

def count (d : DisjointSets α) : Nat × DisjointSets α :=
  let r := d.classes
  (r.1.length, r.2)

def ask (d : DisjointSets α) : ClassStep α → ClassAnswer α × DisjointSets α
  | .join a b => let r := d.join a b; (.members r.1, r.2)
  | .classOf a => let r := d.classOf a; (.members r.1, r.2)
  | .equivalent a b => let r := d.equivalent a b; (.truth r.1, r.2)
  | .classes => let r := d.classes; (.groups r.1, r.2)
  | .count => let r := d.count; (.number r.1, r.2)

@[simp] theorem ask_join (d : DisjointSets α) (a b : α) :
    d.ask (.join a b) = (.members (d.join a b).1, (d.join a b).2) := rfl

@[simp] theorem ask_classOf (d : DisjointSets α) (a : α) :
    d.ask (.classOf a) = (.members (d.classOf a).1, (d.classOf a).2) := rfl

@[simp] theorem ask_equivalent (d : DisjointSets α) (a b : α) :
    d.ask (.equivalent a b) = (.truth (d.equivalent a b).1, (d.equivalent a b).2) := rfl

@[simp] theorem ask_classes (d : DisjointSets α) :
    d.ask .classes = (.groups d.classes.1, d.classes.2) := rfl

@[simp] theorem ask_count (d : DisjointSets α) :
    d.ask .count = (.number d.classes.1.length, d.classes.2) := rfl

def step (d : DisjointSets α) (x : ClassStep α) : DisjointSets α := (d.ask x).2

def run (d : DisjointSets α) (steps : List (ClassStep α)) : DisjointSets α := steps.foldl step d

def answers (d : DisjointSets α) : List (ClassStep α) → List (ClassAnswer α)
  | [] => []
  | x :: rest => (d.ask x).1 :: (d.step x).answers rest

end DisjointSets

end NetSynthesis
