/-! Vectors of whole numbers as lists. Missing entries count as zero, so vectors of different
lengths are added and multiplied like any others. -/
namespace NetSynthesis

abbrev IntVector := List Int

namespace IntVector

def dot : IntVector → IntVector → Int
  | x :: xs, y :: ys => x * y + dot xs ys
  | [], _ => 0
  | _, [] => 0

def add : IntVector → IntVector → IntVector
  | x :: xs, y :: ys => (x + y) :: add xs ys
  | [], ys => ys
  | xs, [] => xs

def scale (k : Int) (xs : IntVector) : IntVector := xs.map (k * ·)

def sub (xs ys : IntVector) : IntVector := add xs (scale (-1) ys)

def zero (n : Nat) : IntVector := List.replicate n 0

def unit (n i : Nat) : IntVector := (List.range n).map fun j => if j = i then 1 else 0

def total (xs : IntVector) : Int := xs.foldr (· + ·) 0

def isZero (xs : IntVector) : Bool := xs.all (· == 0)

@[simp] theorem dot_nil_right (xs : IntVector) : dot xs [] = 0 := by
  cases xs <;> rfl

theorem dot_add (v xs ys : IntVector) : dot v (add xs ys) = dot v xs + dot v ys := by
  induction v generalizing xs ys with
  | nil => simp [dot]
  | cons a v ih =>
    cases xs with
    | nil => simp [add]
    | cons x xs =>
      cases ys with
      | nil => simp [add]
      | cons y ys => simp only [add, dot, ih]; grind

theorem dot_scale (v : IntVector) (k : Int) (xs : IntVector) :
    dot v (scale k xs) = k * dot v xs := by
  induction v generalizing xs with
  | nil => simp [dot]
  | cons a v ih =>
    cases xs with
    | nil => simp [scale]
    | cons x xs =>
      have tail := ih xs
      simp only [scale, List.map_cons, dot] at tail ⊢
      rw [tail]; grind

theorem dot_sub (v xs ys : IntVector) : dot v (sub xs ys) = dot v xs - dot v ys := by
  rw [sub, dot_add, dot_scale]; grind

@[simp] theorem length_unit (n i : Nat) : (unit n i).length = n := by simp [unit]

end IntVector

end NetSynthesis
