import Mathlib.LinearAlgebra.Dimension.Localization
import Mathlib.LinearAlgebra.Matrix.Rank
import NetSynthesis.EquationSystem
import NetSynthesis.Proofs.KernelSolutions

/-! The solutions of a system of equations as a lattice. Vectors are read as functions of the
position and the system as a matrix. Its basis is then a basis of the kernel of the matrix, so that
its size is what the rank leaves of the number of variables. -/
namespace NetSynthesis

open Module

namespace IntVector

variable {n : Nat} {v w : IntVector}

def entries (n : Nat) (v : IntVector) : Fin n → ℤ := fun i => v[i.1]?.getD 0

theorem entries_ofFn (x : Fin n → ℤ) : entries n (List.ofFn x) = x := by
  funext i
  simp [entries]

theorem eq_of_entries (hv : v.length = n) (hw : w.length = n)
    (same : entries n v = entries n w) : v = w := by
  apply List.ext_getElem (hv.trans hw.symm)
  intro i inside inside'
  have at_i := congrFun same ⟨i, hv ▸ inside⟩
  simpa [entries, inside, inside'] using at_i

theorem dot_eq_dotProduct (few : v.length ≤ n) : dot v w = entries n v ⬝ᵥ entries n w := by
  induction v generalizing n w with
  | nil => simp [dot, dotProduct, entries]
  | cons a v ih =>
    obtain ⟨n, rfl⟩ : ∃ k, n = k + 1 := Nat.exists_eq_add_one.2 (Nat.zero_lt_of_lt few)
    cases w with
    | nil => simp [dot, dotProduct, entries]
    | cons b w =>
      rw [dot, ih (n := n) (Nat.le_of_succ_le_succ few), dotProduct, dotProduct,
        Fin.sum_univ_succ]
      simp [entries]

theorem entries_combination (us : List IntVector) {ks : List Int} (size : ks.length = us.length) :
    entries n (combination n ks us) =
      ∑ i : Fin us.length, entries us.length ks i • entries n us[i] := by
  funext j
  have entry (v : IntVector) : entries n v j = dot (unit n j) v := by
    rw [dot_comm, KernelBasis.dot_unit v j.2, entries]
  rw [entry, dot_combination, dot_eq_dotProduct size.le, dotProduct, Finset.sum_apply]
  refine Finset.sum_congr rfl fun i _ => ?_
  rw [Pi.smul_apply, entry, smul_eq_mul]
  simp [entries]

namespace IsBasis

variable {P : IntVector → Prop} {us : List IntVector}

theorem linearIndependent (basis : IsBasis n P us) :
    LinearIndependent ℤ fun i : Fin us.length => entries n us[i] := by
  rw [Fintype.linearIndependent_iff]
  intro g zero
  have sum : entries n (combination n (List.ofFn g) us) =
      entries n (combination n (List.ofFn fun _ : Fin us.length => 0) us) := by
    rw [entries_combination us (by simp), entries_combination us (by simp), entries_ofFn, zero,
      entries_ofFn]
    simp
  have same := basis.unique _ _ (by simp) (by simp)
    (eq_of_entries (length_combination basis.lengths) (length_combination basis.lengths) sum)
  exact congrFun (List.ofFn_injective same)

theorem mem_span_iff (basis : IsBasis n P us) (x : Fin n → ℤ) :
    x ∈ Submodule.span ℤ (Set.range fun i : Fin us.length => entries n us[i]) ↔
      P (List.ofFn x) := by
  rw [basis.spans _ (by simp), Submodule.mem_span_range_iff_exists_fun]
  constructor
  · rintro ⟨g, sum⟩
    refine ⟨List.ofFn g, by simp, eq_of_entries (length_combination basis.lengths) (by simp) ?_⟩
    rw [entries_combination us (by simp), entries_ofFn, entries_ofFn, sum]
  · rintro ⟨ks, size, sum⟩
    refine ⟨entries us.length ks, ?_⟩
    rw [← entries_combination us size, sum, entries_ofFn]

end IsBasis

end IntVector

namespace EquationSystem

open IntVector

def matrix (system : EquationSystem) : Matrix (Fin system.equations.length) (Fin system.size) ℤ :=
  .of fun i => entries system.size system.equations[i]

theorem isSolution_iff {system : EquationSystem} {w : IntVector} :
    system.isSolution w = true ↔ ∀ e ∈ system.equations, e.dot w = 0 := by
  simp [isSolution]

theorem isBasis_basis (system : EquationSystem) :
    IsBasis system.size (fun w => system.isSolution w = true) system.basis :=
  (KernelBasis.isBasis_of system.size system.equations).congr fun _ _ => isSolution_iff.symm

theorem mem_ker_matrix (system : EquationSystem) (x : Fin system.size → ℤ) :
    x ∈ LinearMap.ker system.matrix.mulVecLin ↔ system.isSolution (List.ofFn x) = true := by
  have row (i : Fin system.equations.length) : system.matrix.mulVec x i =
      dot system.equations[i] (List.ofFn x) := by
    have length := system.lengths system.equations[i] (List.getElem_mem _)
    rw [dot_eq_dotProduct length.le, entries_ofFn]
    rfl
  rw [isSolution_iff, LinearMap.mem_ker, Matrix.mulVecLin_apply, List.forall_mem_iff_getElem]
  constructor
  · intro zero i inside
    exact (row ⟨i, inside⟩).symm.trans (congrFun zero _)
  · intro zero
    funext i
    exact (row i).trans (zero i i.2)

/-- The size of the basis and the rank of the matrix make up the number of variables. -/
theorem length_basis_add_rank (system : EquationSystem) :
    system.basis.length + system.matrix.rank = system.size := by
  have basis := system.isBasis_basis
  have kernel : Submodule.span ℤ (Set.range fun i : Fin system.basis.length =>
      entries system.size system.basis[i]) = LinearMap.ker system.matrix.mulVecLin := by
    ext x
    rw [basis.mem_span_iff, mem_ker_matrix]
  have size : finrank ℤ (LinearMap.ker system.matrix.mulVecLin) = system.basis.length := by
    rw [← kernel, finrank_span_eq_card basis.linearIndependent, Fintype.card_fin]
  have range := system.matrix.mulVecLin.quotKerEquivRange.finrank_eq
  have total := Submodule.finrank_quotient_add_finrank (LinearMap.ker system.matrix.mulVecLin)
  rw [range, size, finrank_fin_fun] at total
  rw [Nat.add_comm]
  exact total

/-- The basis of a system is a basis of the lattice of its solutions: it consists of solutions, and
each solution is a combination of them in just one way. -/
theorem basis_isLatticeBasis (system : EquationSystem) :
    (∀ v ∈ system.basis, v.length = system.size ∧ system.isSolution v = true) ∧
    (∀ w : IntVector, w.length = system.size → (system.isSolution w = true ↔
      ∃! ks : List Int, ks.length = system.basis.length ∧
        combination system.size ks system.basis = w)) ∧
    (LinearIndependent ℤ fun i : Fin system.basis.length =>
      entries system.size system.basis[i]) ∧
    system.basis.length + system.matrix.rank = system.size := by
  have basis := system.isBasis_basis
  exact ⟨fun v member => ⟨basis.lengths v member, basis.of_mem member⟩,
    fun w length => basis.existsUnique_iff length, basis.linearIndependent,
    system.length_basis_add_rank⟩

end EquationSystem

end NetSynthesis
