import NetSynthesis.Proofs.ReductionRounds

/-! Column reduction on the transform alone. At every stage the matrix is the matrix of the
equations times the transform, so that a column has the values of all equations at its vector.
Euclid's algorithm on a row is therefore Euclid's algorithm on the values of an equation, and the
vectors that are left from the pivot on can be found without the matrix. -/
namespace NetSynthesis.KernelBasis

open IntVector

/-! ### Projections -/

section Projections

variable {α β : Type} {value : α → Int} {clear : α → α → α} {value' : β → Int}
  {clear' : β → β → β} {π : α → β} {S : α → Prop} {xs : List α}

/-- The values of what satisfies `S`, and how it is cleared, can be seen from its image. -/
structure Projects (S : α → Prop) (π : α → β) (value : α → Int) (clear : α → α → α)
    (value' : β → Int) (clear' : β → β → β) : Prop where
  value_eq : ∀ x, S x → value' (π x) = value x
  clear_eq : ∀ lead x, S lead → S x → π (clear lead x) = clear' (π lead) (π x)
  kept : ∀ lead x, S lead → S x → S (clear lead x)

namespace Projects

variable (projects : Projects S π value clear value' clear')

include projects

theorem round (all : ∀ x ∈ xs, S x) :
    round value' clear' (xs.map π) =
      ((KernelBasis.round value clear xs).1.map π, (KernelBasis.round value clear xs).2) ∧
    ∀ x ∈ (KernelBasis.round value clear xs).1, S x := by
  have values : (xs.map π).map value' = xs.map value := by
    rw [List.map_map]
    exact List.map_congr_left fun x member => projects.value_eq x (all x member)
  rw [KernelBasis.round, KernelBasis.round, values]
  cases leastNonzero (xs.map value) with
  | none => exact ⟨rfl, all⟩
  | some p =>
    have inside : ∀ x ∈ swapToFront p.1 xs, S x :=
      fun x member => all x ((swapToFront_perm p.1 xs).subset member)
    simp only [← map_swapToFront]
    cases swapped : swapToFront p.1 xs with
    | nil => exact ⟨rfl, by simp⟩
    | cons lead rest =>
      obtain ⟨first, others⟩ := List.forall_mem_cons.1 (swapped ▸ inside)
      have zeros : (rest.map π).all (value' · == 0) = rest.all (value · == 0) := by
        rw [List.all_map, Bool.eq_iff_iff, List.all_eq_true, List.all_eq_true]
        refine forall₂_congr fun x member => ?_
        rw [Function.comp_apply, projects.value_eq x (others x member)]
      have cleared : (rest.map (clear lead)).map π = (rest.map π).map (clear' (π lead)) := by
        rw [List.map_map, List.map_map]
        exact List.map_congr_left fun x member =>
          projects.clear_eq lead x first (others x member)
      simp only [List.map_cons, zeros]
      split
      · exact ⟨rfl, List.forall_mem_cons.2 ⟨first, others⟩⟩
      · refine ⟨by rw [← cleared, List.map_cons], List.forall_mem_cons.2 ⟨first, ?_⟩⟩
        exact List.forall_mem_map.2 fun x member => projects.kept lead x first (others x member)

theorem rounds (n : Nat) (all : ∀ x ∈ xs, S x) :
    rounds value' clear' n (xs.map π) = (KernelBasis.rounds value clear n xs).map π ∧
      ∀ x ∈ KernelBasis.rounds value clear n xs, S x := by
  induction n generalizing xs with
  | zero => exact ⟨rfl, all⟩
  | succ n ih =>
    obtain ⟨step, kept⟩ := projects.round all
    rw [KernelBasis.rounds, KernelBasis.rounds, step]
    dsimp only
    split
    · exact ⟨rfl, kept⟩
    · exact ih kept

theorem euclid (all : ∀ x ∈ xs, S x) :
    euclid value' clear' (xs.map π) = (KernelBasis.euclid value clear xs).map π ∧
      ∀ x ∈ KernelBasis.euclid value clear xs, S x := by
  have same : weight value' (xs.map π) = weight value xs := by
    rw [weight_eq_sum, weight_eq_sum, List.map_map]
    refine congrArg List.sum (List.map_congr_left fun x member => ?_)
    rw [Function.comp_apply, projects.value_eq x (all x member)]
  rw [KernelBasis.euclid, KernelBasis.euclid, same]
  exact projects.rounds _ all

end Projects

end Projections

/-! ### Vectors -/

variable {n row : Nat} {equation : IntVector} {equations span : List IntVector}
  {state : Reduction}

/-- Subtracts from a vector the multiple of `lead` that leaves the equation a remainder at it. -/
def clear (equation lead u : IntVector) : IntVector :=
  if equation.dot u = 0 then u
  else u.sub (lead.scale ((equation.dot u).fdiv (equation.dot lead)))

/-- What is left of spanning vectors: all but the one that the equation is not zero at. -/
def restrict (span : List IntVector) (equation : IntVector) : List IntVector :=
  match euclid equation.dot (clear equation) span with
  | [] => []
  | lead :: rest => if equation.dot lead = 0 then lead :: rest else rest

def units (n : Nat) : List IntVector := (List.range n).map (unit n)

def column (equations : List IntVector) (u : IntVector) : IntVector := equations.map (·.dot u)

theorem column_sub_scale (equations : List IntVector) (k : Int) (u v : IntVector) :
    column equations (u.sub (v.scale k)) =
      (column equations u).sub ((column equations v).scale k) := by
  have right : (column equations u).sub ((column equations v).scale k) =
      equations.map fun e => e.dot u + -1 * (k * e.dot v) := by
    rw [IntVector.sub, scale, scale, column, column, List.map_map, List.map_map, add_map]
    rfl
  rw [right]
  apply List.map_congr_left
  intro e _
  rw [dot_sub, dot_scale]
  omega

/-! ### The matrix and its transform -/

/-- The column is the product of the equations and the vector. -/
def Column.Sound (equations : List IntVector) (c : Column) : Prop :=
  c.entries = column equations c.vector

theorem Column.Sound.entry_eq {c : Column} (sound : c.Sound equations)
    (bound : row < equations.length) : c.entry row = (equations[row]).dot c.vector := by
  rw [Column.entry, sound, column, List.getElem?_map, List.getElem?_eq_getElem bound]
  rfl

/-- On the vectors of sound columns the row of the matrix is an equation. -/
theorem projects_vector (bound : row < equations.length) :
    Projects (Column.Sound equations) (·.vector) (Column.entry row) (Column.clear row)
      (equations[row]).dot (clear equations[row]) := by
  refine ⟨fun c sound => (sound.entry_eq bound).symm, fun lead c first sound => ?_,
    fun lead c first sound => ?_⟩
  · rw [clear, Column.clear, ← sound.entry_eq bound, ← first.entry_eq bound]
    split <;> rfl
  · rw [Column.clear]
    split
    · exact sound
    · rw [Column.Sound, column_sub_scale, sound, first]

namespace Reduction

/-- The matrix is that of the equations times the transform. -/
structure Sound (equations : List IntVector) (state : Reduction) : Prop where
  columns : ∀ c ∈ state.columns, c.Sound equations
  pivot_le : state.pivot ≤ state.columns.length

theorem Sound.matrix_eq (sound : state.Sound equations) :
    state.columns.map (·.entries) = (state.columns.map (·.vector)).map (column equations) := by
  rw [List.map_map]
  exact List.map_congr_left sound.columns

end Reduction

theorem dot_unit {i : Nat} (v : IntVector) (bound : i < n) :
    dot v (unit n i) = v[i]?.getD 0 := by
  induction n generalizing v i with
  | zero => simp at bound
  | succ n ih =>
    rw [unit, List.range_succ_eq_map, List.map_cons, List.map_map]
    cases v with
    | nil => simp [dot]
    | cons a v =>
      rw [dot]
      cases i with
      | zero =>
        have zeros : dot v ((List.range n).map ((fun j => if j = 0 then 1 else 0) ∘ Nat.succ)) =
            0 := dot_of_zeros _ _ (by simp)
        simp [zeros]
      | succ i =>
        have rest := ih v (Nat.lt_of_succ_lt_succ bound)
        simpa [unit, Function.comp_def] using rest

namespace Reduction

theorem sound_start (n : Nat) (equations : List IntVector) :
    (start n equations).Sound equations ∧ (start n equations).spanning = units n := by
  refine ⟨⟨List.forall_mem_map.2 fun i inside => ?_, Nat.zero_le _⟩, ?_⟩
  · have bound := List.mem_range.1 inside
    exact List.map_congr_left fun e _ => (dot_unit e bound).symm
  · rw [spanning, start, List.drop_zero, List.map_map]
    rfl

/-- A row takes up an equation. -/
theorem Sound.reduceRow (sound : state.Sound equations) (bound : row < equations.length) :
    (state.reduceRow row).Sound equations ∧
      (state.reduceRow row).spanning = restrict state.spanning equations[row] := by
  rw [Reduction.reduceRow]
  split
  · rename_i finished
    refine ⟨sound, ?_⟩
    rw [spanning, List.drop_eq_nil_of_le finished]
    rfl
  rename_i unfinished
  have from_pivot : ∀ c ∈ state.columns.drop state.pivot, c.Sound equations :=
    fun c member => sound.columns c (List.mem_of_mem_drop member)
  obtain ⟨image, kept⟩ := (projects_vector bound).euclid from_pivot
  have front : (state.columns.take state.pivot).length = state.pivot := by
    simpa using sound.pivot_le
  have columns : ∀ c ∈ state.columns.take state.pivot ++ euclid (Column.entry row)
      (Column.clear row) (state.columns.drop state.pivot), c.Sound equations :=
    List.forall_mem_append.2 ⟨fun c member => sound.columns c (List.mem_of_mem_take member), kept⟩
  rw [restrict, show state.spanning = (state.columns.drop state.pivot).map (·.vector) from rfl,
    image]
  cases result : euclid (Column.entry row) (Column.clear row)
      (state.columns.drop state.pivot) with
  | nil =>
    refine ⟨⟨result ▸ columns, ?_⟩, ?_⟩
    · simp [front]
    · simp [spanning]
  | cons lead rest =>
    rw [result] at columns
    have value := (kept lead (result ▸ List.mem_cons_self)).entry_eq bound
    simp only [List.head?_cons, Option.any_some, List.map_cons, ← value]
    by_cases zero : lead.entry row = 0
    · refine ⟨⟨columns, ?_⟩, ?_⟩
      · simp [zero, front]
      · simp [zero, spanning, List.drop_left' front]
    · refine ⟨⟨columns, ?_⟩, ?_⟩
      · simp [zero, front]
      · simp [zero, spanning, List.drop_append, front]

/-- All rows take up all equations. -/
theorem sound_of (n : Nat) (equations : List IntVector) :
    (of n equations).Sound equations ∧
      (of n equations).spanning = equations.foldl restrict (units n) := by
  have first (k : Nat) (few : k ≤ equations.length) :
      ((List.range k).foldl reduceRow (start n equations)).Sound equations ∧
        ((List.range k).foldl reduceRow (start n equations)).spanning =
          (equations.take k).foldl restrict (units n) := by
    induction k with
    | zero => exact sound_start n equations
    | succ k ih =>
      obtain ⟨sound, spanning⟩ := ih (by omega)
      obtain ⟨sound', spanning'⟩ := sound.reduceRow few
      rw [List.range_succ, List.foldl_append, ← List.take_concat_get' equations k few,
        List.foldl_append, ← spanning]
      exact ⟨sound', spanning'⟩
  rw [of]
  simpa using first equations.length le_rfl

end Reduction

theorem of_eq (n : Nat) (equations : List IntVector) :
    of n equations = (equations.foldl restrict (units n)).map normalize := by
  rw [of, (Reduction.sound_of n equations).2]

end NetSynthesis.KernelBasis
