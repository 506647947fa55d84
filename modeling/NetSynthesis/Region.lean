import NetSynthesis.Error
import NetSynthesis.IntVector

/-! Regions of a transition system over `n` events. A region is a place to be: it takes tokens
for each event and puts tokens back, and it has a number of tokens in the initial state. The effect
of an event is what it puts less what it takes. -/
namespace NetSynthesis

/-- What one event takes from a place and puts on it. -/
structure Weight where
  backward : Nat := 0
  forward : Nat := 0
  deriving DecidableEq, Repr

namespace Weight

def effect (w : Weight) : Int := (w.forward : Int) - w.backward

def ofEffect (x : Int) : Weight := ⟨(-x).toNat, x.toNat⟩

def add (w v : Weight) : Weight := ⟨w.backward + v.backward, w.forward + v.forward⟩

/-- A multiple; a negative factor exchanges what is taken and what is put. -/
def scale (k : Int) (w : Weight) : Weight :=
  if 0 ≤ k then ⟨k.natAbs * w.backward, k.natAbs * w.forward⟩
  else ⟨k.natAbs * w.forward, k.natAbs * w.backward⟩

end Weight

structure Region (n : Nat) where
  weights : List Weight
  initial : Int
  length_eq : weights.length = n
  deriving DecidableEq

namespace Region

variable {n : Nat}

/-! ### Construction -/

/-- The pure region with an effect. Entries that are missing count as zero. -/
def ofEffect (n : Nat) (v : IntVector) (initial : Int := 0) : Region n :=
  ⟨(List.range n).map fun i => .ofEffect (v[i]?.getD 0), initial, by simp⟩

def trivial (n : Nat) : Region n := ⟨List.replicate n {}, 0, by simp⟩

def textOf (events : List String) (backward forward : List Int) (initial : Int) : String :=
  let entries := (events.zip (backward.zip forward)).filterMap fun (e, b, f) =>
    if b = 0 ∧ f = 0 then none else some s!"{b}:{e}:{f}"
  "\x7b " ++ ", ".intercalate (s!"init={initial}" :: entries) ++ " \x7d"

def of (events : List String) (backward forward : List Int) (initial : Int := 0) :
    Except Error (Region events.length) :=
  if lengths : backward.length = events.length ∧ forward.length = events.length then
    if backward.all (0 ≤ ·) && forward.all (0 ≤ ·) then
      .ok ⟨List.zipWith (fun b f => ⟨b.toNat, f.toNat⟩) backward forward, initial, by
        simp [lengths]⟩
    else .error (.negativeWeights (textOf events backward forward initial))
  else .error (.weightCount events.length)

def ofVector (events : List String) (v : IntVector) (initial : Int := 0) :
    Except Error (Region events.length) :=
  of events (v.map fun x => max 0 (-x)) (v.map fun x => max 0 x) initial

def withInitial (r : Region n) (initial : Int) : Region n := { r with initial }

def addScaled (r q : Region n) (k : Int) : Region n :=
  ⟨List.zipWith (fun w v => w.add (v.scale k)) r.weights q.weights, r.initial + k * q.initial, by
    simp [r.length_eq, q.length_eq]⟩

def effect (r : Region n) : IntVector := r.weights.map (·.effect)

/-- The same effect without taking and putting back. -/
def makePure (r : Region n) : Region n :=
  ⟨r.effect.map .ofEffect, r.initial, by simp [effect, r.length_eq]⟩

def negate (r : Region n) : Region n :=
  ⟨r.effect.map fun x => .ofEffect (-x), 0, by simp [effect, r.length_eq]⟩

def setWeight (r : Region n) (i : Nat) (w : Weight) : Region n :=
  ⟨r.weights.set i w, r.initial, by simp [r.length_eq]⟩

/-! ### Weights -/

def backward (r : Region n) : List Int := r.weights.map fun w => (w.backward : Int)

def forward (r : Region n) : List Int := r.weights.map fun w => (w.forward : Int)

def weightAt (r : Region n) (i : Nat) : Weight := r.weights[i]?.getD {}

def isPure (r : Region n) : Bool := r.weights.all fun w => w.forward == 0 || w.backward == 0

def isPlain (r : Region n) : Bool := r.weights.all fun w => w.forward ≤ 1 && w.backward ≤ 1

def isTrivial (r : Region n) : Bool := r.weights.all fun w => w.forward == 0 && w.backward == 0

def consumers (r : Region n) : List Nat :=
  (List.range n).filter fun i => 0 < (r.weightAt i).backward

def producers (r : Region n) : List Nat :=
  (List.range n).filter fun i => 0 < (r.weightAt i).forward

def cost (r : Region n) : Int :=
  r.initial + IntVector.total r.backward + IntVector.total r.forward

/-- The tokens after the events that a vector counts. -/
def tokensAfter (r : Region n) (v : IntVector) : Int := r.initial + r.effect.dot v

def text (r : Region n) (events : List String) : String :=
  textOf events r.backward r.forward r.initial

end Region

/-- A region with the number of the frame it was made for. -/
structure FramedRegion (n : Nat) where
  frame : Nat
  region : Region n
  deriving DecidableEq

def FramedRegion.addScaled {n : Nat} (r q : FramedRegion n) (k : Int := 1) :
    Except Error (FramedRegion n) :=
  if r.frame = q.frame then .ok { r with region := r.region.addScaled q.region k }
  else .error .foreignRegion

end NetSynthesis
