import Mathlib.Algebra.Group.Int.Units
import Mathlib.Algebra.Ring.Int.Defs
import Mathlib.Algebra.Ring.Nat
import Mathlib.Tactic.Ring
import NetSynthesis.Proofs.ColumnReduction
import NetSynthesis.Proofs.LatticeBasis

/-! The vectors of a kernel basis are a basis of the solutions of all equations. The operations of
Euclid's algorithm keep a basis a basis, and the vector that is left out at the end is the only one
that does not solve the equation. The solutions contain every vector of which they contain a
multiple, so that vectors of a basis change at most their sign in their normal form. -/
namespace NetSynthesis.KernelBasis

open IntVector

variable {n : Nat} {equation : IntVector} {span : List IntVector} {P : IntVector → Prop}

/-! ### Operations on coefficients -/

theorem dot_set {ks xs : List Int} {i : Nat} {l y : Int} (at_k : ks[i]? = some l)
    (at_x : xs[i]? = some y)
    (k x : Int) : dot (ks.set i k) (xs.set i x) = dot ks xs - l * y + k * x := by
  induction ks generalizing xs i with
  | nil => simp at at_k
  | cons a ks ih =>
    cases xs with
    | nil => simp at at_x
    | cons b xs =>
      cases i with
      | zero =>
        obtain rfl : a = l := by simpa using at_k
        obtain rfl : b = y := by simpa using at_x
        simp only [List.set_cons_zero, dot]
        omega
      | succ i =>
        have rest := ih (by simpa using at_k) (by simpa using at_x)
        simp only [List.set_cons_succ, dot, rest]
        omega

theorem dot_swapToFront {ks xs : List Int} (length : ks.length = xs.length) (i : Nat) :
    dot (swapToFront i ks) (swapToFront i xs) = dot ks xs := by
  match i, ks, xs with
  | 0, _, _ => rfl
  | _ + 1, [], xs =>
    obtain rfl := List.eq_nil_of_length_eq_zero length.symm
    rfl
  | _ + 1, _ :: _, [] => simp at length
  | i + 1, k :: ks, x :: xs =>
    have same : ks.length = xs.length := by simpa using length
    by_cases bound : i < ks.length
    · have at_k := List.getElem?_eq_getElem bound
      have at_x := List.getElem?_eq_getElem (same ▸ bound)
      simp only [swapToFront, at_k, at_x, dot]
      rw [dot_set at_k at_x]
      omega
    · have off_k := List.getElem?_eq_none (Nat.not_lt.1 bound)
      have off_x := List.getElem?_eq_none (same ▸ Nat.not_lt.1 bound)
      simp only [swapToFront, off_k, off_x]

theorem isBasis_swapToFront (basis : IsBasis n P span) (i : Nat) :
    IsBasis n P (swapToFront i span) := by
  have perm := swapToFront_perm i span
  have lengths : ∀ u ∈ swapToFront i span, u.length = n :=
    fun u member => basis.lengths u (perm.subset member)
  have exchange (ks : List Int) (size : ks.length = span.length) :
      (swapToFront i ks).length = span.length ∧ swapToFront i (swapToFront i ks) = ks :=
    ⟨(swapToFront_perm i ks).length_eq.trans size, swapToFront_swapToFront i ks⟩
  refine basis.recode perm.length_eq lengths exchange exchange fun ks size => ?_
  apply combination_congr basis.lengths lengths
  intro x
  have twice := swapToFront_swapToFront i (span.map (dot x))
  rw [← map_swapToFront] at twice
  rw [← twice, dot_swapToFront]
  rw [size, List.length_map, perm.length_eq]

/-- The multiple of the first vector that clearing subtracts. -/
def quotient (equation lead u : IntVector) : Int := (equation.dot u).fdiv (equation.dot lead)

theorem dot_clear_form (lead u x : IntVector) : dot x (clear equation lead u) =
    dot x u - quotient equation lead u * dot x lead := by
  rw [clear, quotient]
  split
  · rename_i zero
    simp [zero]
  · rw [dot_sub, dot_scale]

theorem dot_clear (lead u : IntVector) :
    equation.dot (clear equation lead u) = (equation.dot u).fmod (equation.dot lead) := by
  rw [dot_clear_form, quotient, Int.fmod_def, Int.mul_comm]

theorem length_clear {lead u : IntVector} (first : lead.length = n) (second : u.length = n) :
    (clear equation lead u).length = n := by
  rw [clear]
  split
  · exact second
  · simp [first, second]

theorem dot_map_clear (lead x : IntVector) (ks : List Int) (us : List IntVector) :
    dot ks ((us.map (clear equation lead)).map (dot x)) =
      dot ks (us.map (dot x)) - dot ks (us.map (quotient equation lead)) * dot x lead := by
  induction ks generalizing us with
  | nil => simp [dot]
  | cons k ks ih =>
    cases us with
    | nil => simp
    | cons u us =>
      simp only [List.map_cons, dot, ih us, dot_clear_form]
      ring

/-- Coefficients with multiples of the others added to the first one. -/
def addToFirst (qs : List Int) : List Int → List Int
  | [] => []
  | k :: ks => (k + dot ks qs) :: ks

theorem addToFirst_addToFirst {qs rs : List Int} (opposite : ∀ ks, dot ks rs = -dot ks qs)
    (ks : List Int) : addToFirst qs (addToFirst rs ks) = ks := by
  cases ks with
  | nil => rfl
  | cons k ks => simp [addToFirst, opposite]

theorem length_addToFirst (qs ks : List Int) : (addToFirst qs ks).length = ks.length := by
  cases ks <;> rfl

/-- What is subtracted from the others is made up for by the coefficient of the first vector. -/
theorem isBasis_clear {lead : IntVector} {rest : List IntVector}
    (basis : IsBasis n P (lead :: rest)) :
    IsBasis n P (lead :: rest.map (clear equation lead)) := by
  obtain ⟨first, others⟩ := List.forall_mem_cons.1 basis.lengths
  have lengths : ∀ u ∈ lead :: rest.map (clear equation lead), u.length = n := by
    refine List.forall_mem_cons.2 ⟨first, fun u member => ?_⟩
    obtain ⟨v, inside, rfl⟩ := List.mem_map.1 member
    exact length_clear first (others v inside)
  generalize quotients : rest.map (quotient equation lead) = qs
  have negated (ks : List Int) : dot ks (IntVector.scale (-1) qs) = -dot ks qs := by
    rw [dot_scale, Int.neg_one_mul]
  have restored (ks : List Int) : dot ks qs = -dot ks (IntVector.scale (-1) qs) := by
    rw [negated, Int.neg_neg]
  refine basis.recode (by simp)
    lengths (g := addToFirst (IntVector.scale (-1) qs)) (h := addToFirst qs)
    (fun ks size => ⟨(length_addToFirst _ ks).trans size, addToFirst_addToFirst negated ks⟩)
    (fun ks size => ⟨(length_addToFirst _ ks).trans size, addToFirst_addToFirst restored ks⟩)
    fun ks size => ?_
  apply combination_congr basis.lengths lengths
  intro x
  cases ks with
  | nil => simp at size
  | cons k ks =>
    simp only [addToFirst, List.map_cons, dot, dot_map_clear, quotients, negated]
    ring

/-- Only combinations without the first vector solve the equation. -/
theorem isBasis_drop {lead : IntVector} {rest : List IntVector}
    (basis : IsBasis n P (lead :: rest)) (nonzero : equation.dot lead ≠ 0)
    (zeros : ∀ u ∈ rest, equation.dot u = 0) :
    IsBasis n (fun w => P w ∧ equation.dot w = 0) rest := by
  obtain ⟨_, others⟩ := List.forall_mem_cons.1 basis.lengths
  have solves (ks : List Int) : dot ks (rest.map equation.dot) = 0 := by
    apply dot_of_zeros
    simpa using zeros
  have without (ks : List Int) :
      combination n (0 :: ks) (lead :: rest) = combination n ks rest := by
    apply eq_of_dot
    · rw [length_combination basis.lengths, length_combination others]
    · intro x
      simp [dot_combination, dot]
  refine ⟨others, fun w length => ?_, fun ks ls hk hl same => ?_⟩
  · rw [basis.spans w length]
    constructor
    · rintro ⟨⟨ks, size, rfl⟩, solved⟩
      cases ks with
      | nil => simp at size
      | cons k ks =>
        rw [dot_combination, List.map_cons, dot, solves, Int.add_zero] at solved
        obtain rfl := (Int.mul_eq_zero.1 solved).resolve_right nonzero
        exact ⟨ks, by simpa using size, (without ks).symm⟩
    · rintro ⟨ks, size, rfl⟩
      refine ⟨⟨0 :: ks, by simpa using size, without ks⟩, ?_⟩
      rw [dot_combination, solves]
  · rw [← without ks, ← without ls] at same
    have equal := basis.unique _ _ (by simpa using hk) (by simpa using hl) same
    exact (List.cons.inj equal).2

/-- An equation that all vectors solve is solved by their combinations. -/
theorem isBasis_solved (basis : IsBasis n P span) (zeros : ∀ u ∈ span, equation.dot u = 0) :
    IsBasis n (fun w => P w ∧ equation.dot w = 0) span := by
  refine basis.congr fun w length => ⟨fun kind => ⟨kind, ?_⟩, And.left⟩
  obtain ⟨ks, _, rfl⟩ := (basis.spans w length).1 kind
  rw [dot_combination]
  apply dot_of_zeros
  simpa using zeros

/-! ### Equations -/

theorem restrict_of_zeros (zeros : ∀ u ∈ span, equation.dot u = 0) :
    restrict span equation = span := by
  have none : leastNonzero (span.map equation.dot) = none :=
    leastNonzero_none.2 (List.forall_mem_map.2 zeros)
  have kept : euclid equation.dot (clear equation) span = span := by
    rw [euclid, rounds, round, none]
    rfl
  rw [restrict, kept]
  cases span with
  | nil => rfl
  | cons lead rest => exact if_pos (zeros lead (by simp))

theorem isBasis_restrict (basis : IsBasis n P span) :
    IsBasis n (fun w => P w ∧ equation.dot w = 0) (restrict span equation) := by
  have whole : IsBasis n P (euclid equation.dot (clear equation) span) :=
    euclid_invariant dot_clear (fun _ i basis => isBasis_swapToFront basis i)
      (fun _ _ basis => isBasis_clear basis) basis
  rw [restrict]
  rcases @euclid_cases _ equation.dot (clear equation) span dot_clear with
    zeros | ⟨lead, rest, result, nonzero, zeros⟩
  · cases result : euclid equation.dot (clear equation) span with
    | nil =>
      rw [result] at whole zeros
      exact isBasis_solved whole zeros
    | cons lead rest =>
      rw [result] at whole zeros
      simp only [zeros lead List.mem_cons_self, if_true]
      exact isBasis_solved whole zeros
  · rw [result] at whole ⊢
    simp only [nonzero, if_false]
    exact isBasis_drop whole nonzero zeros

theorem isBasis_foldl_restrict (equations : List IntVector) (basis : IsBasis n P span) :
    IsBasis n (fun w => P w ∧ ∀ e ∈ equations, e.dot w = 0) (equations.foldl restrict span) := by
  induction equations generalizing span P with
  | nil => exact basis.congr fun w _ => by simp
  | cons e equations ih =>
    exact (ih (isBasis_restrict basis)).congr fun w _ => by simp [and_assoc]

theorem dot_map_entries (ks v : IntVector) (few : ks.length ≤ n) :
    dot ks ((List.range n).map fun i => v[i]?.getD 0) = dot ks v := by
  induction n generalizing ks v with
  | zero =>
    obtain rfl := List.eq_nil_of_length_eq_zero (Nat.le_zero.1 few)
    rfl
  | succ n ih =>
    rw [List.range_succ_eq_map, List.map_cons, List.map_map]
    cases ks with
    | nil => rfl
    | cons k ks =>
      have rest := ih ks v.tail (by simpa using few)
      cases v with
      | nil => simpa [dot, Function.comp_def] using rest
      | cons a v => simpa [dot, Function.comp_def] using rest

theorem isBasis_units (n : Nat) : IsBasis n (fun _ => True) (units n) := by
  have lengths : ∀ u ∈ units n, u.length = n := by simp [units]
  have size : (units n).length = n := by simp [units]
  have entries (ks : List Int) (few : ks.length = n) : combination n ks (units n) = ks := by
    apply eq_of_dot
    · rw [length_combination lengths, few]
    · intro x
      have values : (units n).map (dot x) = (List.range n).map fun i => x[i]?.getD 0 := by
        rw [units, List.map_map]
        apply List.map_congr_left
        exact fun i member => dot_unit x (List.mem_range.1 member)
      rw [dot_combination, values, dot_map_entries ks x few.le, dot_comm]
  refine ⟨lengths, fun w length => iff_of_true trivial ⟨w, ?_, entries w length⟩, ?_⟩
  · rw [length, size]
  · intro ks ls hk hl same
    rw [size] at hk hl
    rwa [entries ks hk, entries ls hl] at same

/-! ### Normal form -/

theorem gcd_foldl_dvd (v : IntVector) (g : Nat) :
    v.foldl (fun g x => g.gcd x.natAbs) g ∣ g ∧
      ∀ x ∈ v, v.foldl (fun g x => g.gcd x.natAbs) g ∣ x.natAbs := by
  induction v generalizing g with
  | nil => simp
  | cons x v ih =>
    obtain ⟨left, rest⟩ := ih (g.gcd x.natAbs)
    refine ⟨Nat.dvd_trans left (Nat.gcd_dvd_left ..), fun y member => ?_⟩
    rcases List.mem_cons.1 member with rfl | inside
    · exact Nat.dvd_trans left (Nat.gcd_dvd_right ..)
    · exact rest y inside

theorem exists_scale_normalize (v : IntVector) : ∃ k : Int,
    v = (normalize v).scale k ∧ (k = 0 → ∀ x ∈ normalize v, x = 0) := by
  unfold normalize
  simp only
  generalize divides : v.foldl (fun g x => g.gcd x.natAbs) 0 = g
  have dvd : ∀ x ∈ v, (g : Int) ∣ x := by
    intro x member
    rw [Int.ofNat_dvd_left, ← divides]
    exact (gcd_foldl_dvd v 0).2 x member
  have exact : ∀ x ∈ v, (g : Int) * (x / g) = x :=
    fun x member => Int.mul_ediv_cancel' (dvd x member)
  have back : v = IntVector.scale g (v.map (· / (g : Int))) := by
    rw [IntVector.scale, List.map_map]
    exact (List.map_id _).symm.trans (List.map_congr_left fun x member => (exact x member).symm)
  have zeros : (g : Int) = 0 → ∀ x ∈ v.map (· / (g : Int)), x = 0 := by
    intro zero x member
    obtain ⟨y, _, rfl⟩ := List.mem_map.1 member
    simp [zero]
  split
  · refine ⟨-g, ?_, fun zero x member => ?_⟩
    · nth_rewrite 1 [back]
      simp [IntVector.scale]
    · obtain ⟨y, inside, rfl⟩ := List.mem_map.1 member
      rw [zeros (by omega) y inside, Int.neg_zero]
  · exact ⟨g, back, zeros⟩

theorem dot_normalize {e v : IntVector} (solves : e.dot v = 0) : e.dot (normalize v) = 0 := by
  obtain ⟨k, multiple, degenerate⟩ := exists_scale_normalize v
  by_cases zero : k = 0
  · exact dot_of_zeros _ _ (degenerate zero)
  · rw [multiple, dot_scale] at solves
    exact (Int.mul_eq_zero.1 solves).resolve_left zero

theorem length_normalize (v : IntVector) : (normalize v).length = v.length := by
  unfold normalize
  simp only
  split <;> simp

/-- In a basis of a kind that has all normal forms, a vector differs from its normal form at most
by the sign. -/
theorem exists_sign (basis : IsBasis n P span) (normal : ∀ u, P u → P (normalize u))
    {u : IntVector} (member : u ∈ span) :
    ∃ k : Int, k * k = 1 ∧ normalize u = u.scale k := by
  obtain ⟨k, multiple, _⟩ := exists_scale_normalize u
  have length := (length_normalize u).trans (basis.lengths u member)
  obtain ⟨ls, hl, sum⟩ := (basis.spans _ length).1 (normal u (basis.of_mem member))
  obtain ⟨ks, hk, back, one⟩ := exists_combination_of_mem member basis.lengths
  have scaled : combination n (IntVector.scale k ls) span = combination n ks span := by
    rw [combination_scale basis.lengths, sum, back]
    exact multiple.symm
  have coefficients := basis.unique _ _ (by simpa using hl) hk scaled
  rw [← coefficients] at one
  obtain ⟨l, _, unit⟩ := List.mem_map.1 one
  have square : k * k = 1 := by
    rcases Int.eq_one_or_neg_one_of_mul_eq_one unit with rfl | rfl <;> rfl
  refine ⟨k, square, ?_⟩
  nth_rewrite 2 [multiple]
  rw [scale_scale, square, one_scale]

theorem isBasis_normalize (basis : IsBasis n P span) (normal : ∀ u, P u → P (normalize u)) :
    IsBasis n P (span.map normalize) := by
  have signs : ∀ u ∈ span, ∃ k : Int, k * k = 1 ∧ normalize u = u.scale k :=
    fun u member => exists_sign basis normal member
  choose! sign square form using signs
  rw [List.map_congr_left form]
  exact basis.changeSigns square

/-- A kernel basis is a basis of the vectors at which all equations are zero. -/
theorem isBasis_of (n : Nat) (equations : List IntVector) :
    IsBasis n (fun w => ∀ e ∈ equations, e.dot w = 0) (of n equations) := by
  have solutions := (isBasis_foldl_restrict equations (isBasis_units n)).congr
    (Q := fun w => ∀ e ∈ equations, e.dot w = 0) fun w _ => by simp
  rw [of_eq]
  exact isBasis_normalize solutions fun u solved e member => dot_normalize (solved e member)

theorem of_solves {equations : List IntVector} {v : IntVector} (member : v ∈ of n equations) :
    v.length = n ∧ ∀ e ∈ equations, e.dot v = 0 :=
  ⟨(isBasis_of n equations).lengths v member, (isBasis_of n equations).of_mem member⟩

end NetSynthesis.KernelBasis
