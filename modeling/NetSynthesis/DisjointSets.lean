/-! Equivalence relations built by joining classes. The elements that were ever joined form a
forest whose trees are the classes; an element that was never joined is alone in its class. Looking
for a root shortens the path to it, so that a query returns the forest together with its answer. -/
namespace NetSynthesis

/-- The parent of each element, in the order in which the elements were first joined. -/
structure DisjointSets (α : Type) where
  parents : List (α × α) := []
  deriving DecidableEq, Repr

namespace DisjointSets

variable {α : Type} [DecidableEq α]

def members (d : DisjointSets α) : List α := d.parents.map (·.1)

def parent (d : DisjointSets α) (a : α) : α := (d.parents.lookup a).getD a

def ancestor (d : DisjointSets α) : Nat → α → α
  | 0, a => a
  | n + 1, a => let p := d.parent a; if p = a then a else ancestor d n p

/-- The root of an element's tree. A path to a root is no longer than the number of elements. -/
def root (d : DisjointSets α) (a : α) : α := d.ancestor d.parents.length a

def setParent (d : DisjointSets α) (a p : α) : DisjointSets α :=
  ⟨d.parents.map fun (b, q) => if b = a then (b, p) else (b, q)⟩

/-- Hangs the elements on the way from `a` to the root `r` below `r`, at most `n` of them. -/
def compress (d : DisjointSets α) (r : α) : Nat → α → DisjointSets α
  | 0, _ => d
  | n + 1, a => if a = r then d else (d.setParent a r).compress r n (d.parent a)

def find (d : DisjointSets α) (a : α) : α × DisjointSets α :=
  let r := d.root a
  (r, d.compress r d.parents.length a)

def insert (d : DisjointSets α) (a : α) : DisjointSets α :=
  if d.members.contains a then d else ⟨d.parents ++ [(a, a)]⟩

def findAll (d : DisjointSets α) : List α → List (α × α) × DisjointSets α
  | [] => ([], d)
  | a :: rest =>
    let (r, d) := d.find a
    let (found, d) := d.findAll rest
    ((a, r) :: found, d)

def classOf (d : DisjointSets α) (a : α) : List α × DisjointSets α :=
  if d.members.contains a then
    let (r, d) := d.find a
    let (found, d) := d.findAll d.members
    ((found.filter (·.2 = r)).map (·.1), d)
  else ([a], d)

def join (d : DisjointSets α) (a b : α) : List α × DisjointSets α :=
  let (r, d) := ((d.insert a).insert b).find a
  let (s, d) := d.find b
  (d.setParent s r).classOf a

def equivalent (d : DisjointSets α) (a b : α) : Bool × DisjointSets α :=
  if a = b then (true, d)
  else if d.members.contains a && d.members.contains b then
    let (r, d) := d.find a
    let (s, d) := d.find b
    (r = s, d)
  else (false, d)

def addToGroup (groups : List (α × List α)) (member : α × α) : List (α × List α) :=
  if groups.any (·.1 = member.2) then
    groups.map fun (r, g) => if r = member.2 then (r, g ++ [member.1]) else (r, g)
  else groups ++ [(member.2, [member.1])]

/-- The classes of two or more elements, in the order of their first elements. -/
def classes (d : DisjointSets α) : List (List α) × DisjointSets α :=
  let (found, d) := d.findAll d.members
  (((found.foldl addToGroup []).map (·.2)).filter (1 < ·.length), d)

def ofPairs (pairs : List (α × α)) : DisjointSets α :=
  pairs.foldl (fun d (a, b) => (d.join a b).2) {}

end DisjointSets

end NetSynthesis
