import NetSynthesis.Proofs.SolutionLattice

/-! The basis of a system does not depend on redundant ways to state its equations. The vectors that
are left when an equation is taken up solve all equations before it. At these vectors a multiple of
the equation plus a combination of those before it has a constant multiple of the values that the
equation has, which takes Euclid's algorithm through the same steps. An equation that follows from
those before it is zero at all of them, which leaves nothing to do. -/
namespace NetSynthesis.KernelBasis

open IntVector

variable {n : Nat} {e f : IntVector} {k : Int} {span next : List IntVector}

/-! ### Multiples of an equation -/

/-- At the spanning vectors one equation has the values of another one times a constant. -/
def Proportional (k : Int) (e f : IntVector) (span : List IntVector) : Prop :=
  ∀ u ∈ span, f.dot u = k * e.dot u

theorem leastNonzero_scale (nonzero : k ≠ 0) (xs : List Int) :
    leastNonzero (scale k xs) = (leastNonzero xs).map fun p => (p.1, k.natAbs * p.2) := by
  have positive : 0 < k.natAbs := Int.natAbs_pos.2 nonzero
  induction xs with
  | nil => rfl
  | cons x xs ih =>
    have size : (k * x).natAbs = k.natAbs * x.natAbs := Int.natAbs_mul k x
    have zero_iff : k * x = 0 ↔ x = 0 := by simp [nonzero]
    rw [scale, List.map_cons, leastNonzero, ← scale, ih, leastNonzero]
    cases leastNonzero xs with
    | none => by_cases zero : x = 0 <;> simp [zero, nonzero, size]
    | some p =>
      have smaller_iff : (k * x ≠ 0 ∧ (k * x).natAbs ≤ k.natAbs * p.2) ↔
          (x ≠ 0 ∧ x.natAbs ≤ p.2) := by
        rw [Ne, zero_iff, size, Nat.mul_le_mul_left_iff positive]
      simp only [Option.map_some, smaller_iff]
      split <;> simp [size]

theorem fdiv_mul_mul (nonzero : k ≠ 0) (x y : Int) : (k * x).fdiv (k * y) = x.fdiv y := by
  rcases Int.lt_or_gt_of_ne nonzero with negative | positive
  · rw [← Int.neg_fdiv_neg, ← Int.neg_mul, ← Int.neg_mul]
    exact Int.mul_fdiv_mul_of_pos x y (by omega)
  · exact Int.mul_fdiv_mul_of_pos x y positive

theorem clear_of_proportional (nonzero : k ≠ 0) {lead u : IntVector}
    (at_lead : f.dot lead = k * e.dot lead) (at_u : f.dot u = k * e.dot u) :
    clear f lead u = clear e lead u := by
  have zero_iff : k * e.dot u = 0 ↔ e.dot u = 0 := by simp [nonzero]
  simp only [clear, at_lead, at_u, fdiv_mul_mul nonzero, zero_iff]

namespace Proportional

theorem map_dot (same : Proportional k e f span) :
    span.map f.dot = scale k (span.map e.dot) := by
  rw [scale, List.map_map]
  exact List.map_congr_left same

theorem round_eq (nonzero : k ≠ 0) (same : Proportional k e f span) :
    KernelBasis.round f.dot (clear f) span = KernelBasis.round e.dot (clear e) span := by
  rw [KernelBasis.round, same.map_dot, leastNonzero_scale nonzero, KernelBasis.round]
  cases leastNonzero (span.map e.dot) with
  | none => rfl
  | some p =>
    simp only [Option.map_some]
    cases swapped : swapToFront p.1 span with
    | nil => rfl
    | cons lead rest =>
      have inside : ∀ u ∈ lead :: rest, u ∈ span :=
        fun u member => (swapToFront_perm p.1 span).subset (swapped ▸ member)
      have zeros : rest.all (f.dot · == 0) = rest.all (e.dot · == 0) := by
        rw [Bool.eq_iff_iff, List.all_eq_true, List.all_eq_true]
        refine forall₂_congr fun u member => ?_
        simp [same u (inside u (List.mem_cons_of_mem _ member)), nonzero]
      have cleared : rest.map (clear f lead) = rest.map (clear e lead) := by
        apply List.map_congr_left
        intro u member
        exact clear_of_proportional nonzero (same lead (inside lead (by simp)))
          (same u (inside u (List.mem_cons_of_mem _ member)))
      simp only [zeros, cleared]

theorem swap (same : Proportional k e f span) (i : Nat) :
    Proportional k e f (swapToFront i span) :=
  fun u member => same u ((swapToFront_perm i span).subset member)

/-- Vectors are taken from each other, so that the factor stays the same. -/
theorem clears {lead : IntVector} {rest : List IntVector}
    (same : Proportional k e f (lead :: rest)) :
    Proportional k e f (lead :: rest.map (clear e lead)) := by
  obtain ⟨first, others⟩ := List.forall_mem_cons.1 same
  refine List.forall_mem_cons.2 ⟨first, List.forall_mem_map.2 fun u member => ?_⟩
  rw [dot_clear_form, dot_clear_form, first, others u member]
  ring

theorem round (same : Proportional k e f span) {last : Bool}
    (step : KernelBasis.round e.dot (clear e) span = (next, last)) : Proportional k e f next := by
  rcases round_cases step with ⟨_, rfl, _⟩ |
    ⟨i, lead, rest, swapped, _, _, _, ⟨_, rfl, _⟩ | ⟨_, rfl, _⟩⟩
  · exact same
  · exact swapped ▸ same.swap i
  · exact (swapped ▸ same.swap i : Proportional k e f (lead :: rest)).clears

theorem euclid_eq (nonzero : k ≠ 0) (same : Proportional k e f span) :
    euclid f.dot (clear f) span = euclid e.dot (clear e) span := by
  generalize size : weight e.dot span = m
  induction m using Nat.strongRecOn generalizing span with
  | ind m ih =>
    cases step : KernelBasis.round e.dot (clear e) span with
    | mk next last =>
      rw [euclid_of_round dot_clear ((same.round_eq nonzero).trans step),
        euclid_of_round dot_clear step]
      cases last with
      | true => rfl
      | false =>
        have lower := weight_round_lt dot_clear step
        exact ih _ (size ▸ lower) (same.round step) rfl

theorem euclid (same : Proportional k e f span) :
    Proportional k e f (euclid e.dot (clear e) span) :=
  euclid_invariant dot_clear (fun _ i same => same.swap i) (fun _ _ same => same.clears) same

end Proportional

theorem restrict_of_proportional (nonzero : k ≠ 0) (same : Proportional k e f span) :
    restrict span f = restrict span e := by
  have left := same.euclid
  rw [restrict, restrict, same.euclid_eq nonzero]
  cases result : euclid e.dot (clear e) span with
  | nil => rfl
  | cons lead rest =>
    have zero_iff : f.dot lead = 0 ↔ e.dot lead = 0 := by
      rw [left lead (result ▸ List.mem_cons_self)]
      simp [nonzero]
    simp only [zero_iff]

/-! ### Equations after others -/

variable {before : List IntVector}

/-- The vectors that are left after some equations solve them. -/
theorem solves_of_mem_foldl {u : IntVector} (member : u ∈ before.foldl restrict (units n)) :
    u.length = n ∧ ∀ e ∈ before, e.dot u = 0 := by
  have basis := isBasis_foldl_restrict before (isBasis_units n)
  exact ⟨basis.lengths u member, (basis.of_mem member).2⟩

theorem dot_combination_of_solved {u : IntVector} (solved : ∀ e ∈ before, e.dot u = 0)
    (ks : List Int) : dot (combination n ks before) u = 0 := by
  rw [dot_comm, dot_combination]
  apply dot_of_zeros
  rw [List.forall_mem_map]
  exact fun e member => (dot_comm u e).trans (solved e member)

def rationals (n : Nat) (v : IntVector) : Fin n → ℚ := fun i => entries n v i

/-- An equation follows from others if it is a combination of them with rational coefficients. -/
def Follows (n : Nat) (before : List IntVector) (e : IntVector) : Prop :=
  rationals n e ∈ Submodule.span ℚ (rationals n '' { f | f ∈ before })

theorem rationals_dotProduct {u : IntVector} (length : u.length = n) (v : IntVector) :
    rationals n v ⬝ᵥ rationals n u = (v.dot u : ℤ) := by
  rw [dot_comm, dot_eq_dotProduct length.le, dotProduct_comm, dotProduct, dotProduct]
  simp [rationals]

theorem Follows.dot_eq_zero (follows : Follows n before e) {u : IntVector} (length : u.length = n)
    (solved : ∀ f ∈ before, f.dot u = 0) : e.dot u = 0 := by
  have zero : rationals n e ⬝ᵥ rationals n u = 0 := by
    rw [Follows] at follows
    generalize rationals n e = x at follows
    induction follows using Submodule.span_induction with
    | mem x generator =>
      obtain ⟨f, member, rfl⟩ := generator
      rw [rationals_dotProduct length, solved f member, Int.cast_zero]
    | zero => exact zero_dotProduct _
    | add x y _ _ hx hy => rw [add_dotProduct, hx, hy, add_zero]
    | smul q x _ hx => rw [smul_dotProduct, hx, smul_zero]
  rwa [rationals_dotProduct length, Int.cast_eq_zero] at zero

/-- One change to a list of equations: an equation is replaced by a multiple of itself plus a
combination of those before it, or one that follows from those before it is inserted or deleted. -/
inductive Restated (n : Nat) : List IntVector → List IntVector → Prop
  | replaced {before after : List IntVector} {e : IntVector} {k : Int} (ks : List Int) :
      k ≠ 0 → Restated n (before ++ e :: after)
        (before ++ (e.scale k).add (combination n ks before) :: after)
  | inserted {before after : List IntVector} {e : IntVector} :
      Follows n before e → Restated n (before ++ after) (before ++ e :: after)
  | deleted {before after : List IntVector} {e : IntVector} :
      Follows n before e → Restated n (before ++ e :: after) (before ++ after)

/-- Behind the same equations, proportional ones restrict the span in the same way. -/
theorem foldl_replaced (nonzero : k ≠ 0) (ks : List Int) (before after : List IntVector)
    (e : IntVector) :
    (before ++ (e.scale k).add (combination n ks before) :: after).foldl restrict (units n) =
      (before ++ e :: after).foldl restrict (units n) := by
  have same : Proportional k e ((e.scale k).add (combination n ks before))
      (before.foldl restrict (units n)) := by
    intro u member
    rw [dot_comm, dot_add, dot_comm u (combination n ks before),
      dot_combination_of_solved (solves_of_mem_foldl member).2, dot_scale, Int.add_zero, dot_comm]
  rw [List.foldl_append, List.foldl_cons, restrict_of_proportional nonzero same,
    List.foldl_append, List.foldl_cons]

theorem foldl_inserted (follows : Follows n before e) (after : List IntVector) :
    (before ++ e :: after).foldl restrict (units n) =
      (before ++ after).foldl restrict (units n) := by
  have zeros : ∀ u ∈ before.foldl restrict (units n), e.dot u = 0 := by
    intro u member
    obtain ⟨length, solved⟩ := solves_of_mem_foldl member
    exact follows.dot_eq_zero length solved
  rw [List.foldl_append, List.foldl_cons, restrict_of_zeros zeros, List.foldl_append]

theorem of_restated {es fs : List IntVector} (step : Restated n es fs) : of n fs = of n es := by
  rw [of_eq, of_eq]
  cases step with
  | replaced ks nonzero => rw [foldl_replaced nonzero]
  | inserted follows => rw [foldl_inserted follows]
  | deleted follows => rw [foldl_inserted follows]

end NetSynthesis.KernelBasis

namespace NetSynthesis.EquationSystem

open IntVector KernelBasis

/-- Systems in the same variables have the same basis, vector by vector, if one states the equations
of the other again, with any number of changes. -/
theorem basis_of_restated {s t : EquationSystem} (size : t.size = s.size)
    (steps : Relation.ReflTransGen (Restated s.size) s.equations t.equations) :
    t.basis = s.basis := by
  rw [basis, basis, size]
  generalize t.equations = fs at steps
  induction steps with
  | refl => rfl
  | tail _ step ih => rw [of_restated step, ih]

def planes : EquationSystem := ⟨3, [[2, 4, 6], [1, 1, 1]], by decide⟩

/-- The planes with half of the first equation behind it, and with three times the first equation
minus twice the second one for the second one. -/
def planesRestated : EquationSystem := ⟨3, [[2, 4, 6], [1, 2, 3], [4, 10, 16]], by decide⟩

theorem basis_of_restated_planes :
    Relation.ReflTransGen (Restated 3) planes.equations planesRestated.equations ∧
      planesRestated.basis = planes.basis ∧ planes.basis = [[1, -2, 1]] := by
  have half : Follows 3 [[2, 4, 6]] [1, 2, 3] := by
    have scaled : rationals 3 [1, 2, 3] = (1 / 2 : ℚ) • rationals 3 [2, 4, 6] := by
      funext i
      fin_cases i <;> norm_num [rationals, entries]
    rw [Follows, scaled]
    exact Submodule.smul_mem _ _ (Submodule.subset_span ⟨[2, 4, 6], by simp, rfl⟩)
  have first : Restated 3 [[2, 4, 6], [1, 1, 1]] [[2, 4, 6], [4, 10, 16]] := by
    have changed : (scale (-2) [1, 1, 1]).add (combination 3 [3] [[2, 4, 6]]) = [4, 10, 16] := by
      decide
    rw [← changed]
    exact @Restated.replaced 3 [[2, 4, 6]] [] [1, 1, 1] (-2) [3] (by decide)
  have second : Restated 3 [[2, 4, 6], [4, 10, 16]] [[2, 4, 6], [1, 2, 3], [4, 10, 16]] :=
    @Restated.inserted 3 [[2, 4, 6]] [[4, 10, 16]] [1, 2, 3] half
  have steps : Relation.ReflTransGen (Restated 3) planes.equations planesRestated.equations :=
    .tail (.single first) second
  exact ⟨steps, basis_of_restated rfl steps, by decide⟩

end NetSynthesis.EquationSystem
