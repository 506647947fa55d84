import Mathlib.Tactic.Choose
import NetSynthesis.KernelBasis
import NetSynthesis.Proofs.TreeVectors

/-! Bases of lattices. Vectors are a basis of a kind of vectors if every vector of that kind, and no
other, is a combination of them with whole coefficients, in just one way. The operations on spanning
vectors that can be undone on the coefficients keep a basis a basis. -/
namespace NetSynthesis.IntVector

variable {n : Nat} {ks ls : List Int} {us vs : List IntVector} {v w : IntVector}

/-- The sum of multiples of vectors of length `n`. -/
def combination (n : Nat) : List Int → List IntVector → IntVector
  | k :: ks, u :: us => (u.scale k).add (combination n ks us)
  | _, _ => zero n

theorem length_combination (lengths : ∀ u ∈ us, u.length = n) :
    (combination n ks us).length = n := by
  induction ks generalizing us with
  | nil => simp [combination, zero]
  | cons k ks ih =>
    cases us with
    | nil => simp [combination, zero]
    | cons u us =>
      obtain ⟨first, rest⟩ := List.forall_mem_cons.1 lengths
      simp [combination, first, ih rest]

theorem dot_zero (v : IntVector) (n : Nat) : dot v (zero n) = 0 := by
  apply dot_of_zeros
  exact fun x member => List.eq_of_mem_replicate member

theorem dot_combination (v : IntVector) (ks : List Int) (us : List IntVector) :
    dot v (combination n ks us) = dot ks (us.map (dot v)) := by
  induction ks generalizing us with
  | nil => exact dot_zero v n
  | cons k ks ih =>
    cases us with
    | nil => exact dot_zero v n
    | cons u us => rw [combination, dot_add, dot_scale, ih, List.map_cons, dot]

theorem eq_of_dot (length : v.length = w.length) (all : ∀ x, dot x v = dot x w) : v = w := by
  induction v generalizing w with
  | nil => exact (List.eq_nil_of_length_eq_zero length.symm).symm
  | cons a v ih =>
    cases w with
    | nil => simp at length
    | cons b w =>
      have head := all [1]
      have tail : v = w := by
        apply ih (Nat.succ.inj length)
        intro x
        have shifted := all (0 :: x)
        simpa [dot] using shifted
      simp only [dot, Int.one_mul, Int.add_zero] at head
      rw [head, tail]

theorem combination_congr (left : ∀ u ∈ us, u.length = n) (right : ∀ u ∈ vs, u.length = n)
    (same : ∀ x, dot ks (us.map (dot x)) = dot ls (vs.map (dot x))) :
    combination n ks us = combination n ls vs := by
  apply eq_of_dot
  · rw [length_combination left, length_combination right]
  · intro x
    rw [dot_combination, dot_combination, same]

theorem combination_scale (lengths : ∀ u ∈ us, u.length = n) (k : Int) :
    combination n (scale k ks) us = scale k (combination n ks us) := by
  apply eq_of_dot
  · rw [length_scale, length_combination lengths, length_combination lengths]
  · intro x
    rw [dot_scale, dot_combination, dot_combination, scale_dot]

theorem scale_scale (k l : Int) (v : IntVector) : scale k (scale l v) = scale (k * l) v := by
  simp [scale, Int.mul_assoc]

@[simp] theorem one_scale (v : IntVector) : scale 1 v = v := by simp [scale]

theorem exists_combination_of_mem {u : IntVector} (member : u ∈ us)
    (lengths : ∀ u ∈ us, u.length = n) :
    ∃ ks, ks.length = us.length ∧ combination n ks us = u ∧ 1 ∈ ks := by
  induction us with
  | nil => simp at member
  | cons v us ih =>
    obtain ⟨first, rest⟩ := List.forall_mem_cons.1 lengths
    rcases List.mem_cons.1 member with rfl | later
    · refine ⟨1 :: zero us.length, by simp [zero], ?_, by simp⟩
      apply eq_of_dot
      · rw [length_combination lengths, first]
      · intro x
        rw [dot_combination, List.map_cons, dot, dot_comm (zero _), dot_zero]
        simp
    · obtain ⟨ks, length, sum, one⟩ := ih later rest
      refine ⟨0 :: ks, by simp [length], ?_, List.mem_cons_of_mem _ one⟩
      rw [← sum]
      apply eq_of_dot
      · rw [length_combination lengths, length_combination rest]
      · intro x
        simp [dot_combination, dot]

def changeBy (sign : IntVector → Int) (ks : List Int) (us : List IntVector) : List Int :=
  List.zipWith (fun k u => k * sign u) ks us

theorem changeBy_changeBy {sign : IntVector → Int} (size : ks.length = us.length)
    (square : ∀ u ∈ us, sign u * sign u = 1) : changeBy sign (changeBy sign ks us) us = ks := by
  induction ks generalizing us with
  | nil => rfl
  | cons k ks ih =>
    cases us with
    | nil => simp at size
    | cons u us =>
      obtain ⟨first, rest⟩ := List.forall_mem_cons.1 square
      have tail := ih (by simpa using size) rest
      simp only [changeBy] at tail
      simp [changeBy, tail, Int.mul_assoc, first]

theorem dot_changeBy (sign : IntVector → Int) (ks : List Int) (us : List IntVector)
    (x : IntVector) : dot (changeBy sign ks us) (us.map (dot x)) =
      dot ks (us.map fun u => sign u * dot x u) := by
  induction ks generalizing us with
  | nil => rfl
  | cons k ks ih =>
    cases us with
    | nil => rfl
    | cons u us =>
      have tail := ih us
      simp only [changeBy] at tail
      simp [changeBy, dot, tail, Int.mul_assoc]

/-- Vectors of length `n` of which just the vectors of a kind are combinations, each in one way. -/
structure IsBasis (n : Nat) (P : IntVector → Prop) (us : List IntVector) : Prop where
  lengths : ∀ u ∈ us, u.length = n
  spans : ∀ w, w.length = n → (P w ↔ ∃ ks, ks.length = us.length ∧ combination n ks us = w)
  unique : ∀ ks ls, ks.length = us.length → ls.length = us.length →
    combination n ks us = combination n ls us → ks = ls

namespace IsBasis

variable {P Q : IntVector → Prop}

theorem congr (basis : IsBasis n P us) (same : ∀ w, w.length = n → (P w ↔ Q w)) :
    IsBasis n Q us :=
  ⟨basis.lengths, fun w length => (same w length).symm.trans (basis.spans w length), basis.unique⟩

theorem of_mem (basis : IsBasis n P us) {u : IntVector} (member : u ∈ us) : P u := by
  obtain ⟨ks, length, sum, _⟩ := exists_combination_of_mem member basis.lengths
  exact (basis.spans u (basis.lengths u member)).2 ⟨ks, length, sum⟩

/-- What a vector of the kind has for coefficients. -/
theorem existsUnique_iff (basis : IsBasis n P us) (length : w.length = n) :
    P w ↔ ∃! ks, ks.length = us.length ∧ combination n ks us = w := by
  rw [basis.spans w length]
  constructor
  · rintro ⟨ks, size, sum⟩
    refine ⟨ks, ⟨size, sum⟩, fun ls other => ?_⟩
    exact basis.unique ls ks other.1 size (other.2.trans sum.symm)
  · exact ExistsUnique.exists

/-- Vectors with the same combinations, where coefficients can be translated there and back. -/
theorem recode (basis : IsBasis n P us) (size : vs.length = us.length)
    (lengths : ∀ v ∈ vs, v.length = n) {g h : List Int → List Int}
    (there : ∀ ks, ks.length = us.length → (g ks).length = us.length ∧ h (g ks) = ks)
    (back : ∀ ks, ks.length = us.length → (h ks).length = us.length ∧ g (h ks) = ks)
    (sums : ∀ ks, ks.length = us.length → combination n (g ks) us = combination n ks vs) :
    IsBasis n P vs := by
  refine ⟨lengths, fun w length => ?_, fun ks ls hk hl same => ?_⟩
  · rw [basis.spans w length, size]
    constructor
    · rintro ⟨ks, hk, rfl⟩
      obtain ⟨fits, inverse⟩ := back ks hk
      exact ⟨h ks, fits, by rw [← sums _ fits, inverse]⟩
    · rintro ⟨ks, hk, rfl⟩
      exact ⟨g ks, (there ks hk).1, sums ks hk⟩
  · rw [size] at hk hl
    rw [← sums ks hk, ← sums ls hl] at same
    have coded := basis.unique _ _ (there ks hk).1 (there ls hl).1 same
    rw [← (there ks hk).2, ← (there ls hl).2, coded]

theorem changeSigns (basis : IsBasis n P us) {sign : IntVector → Int}
    (square : ∀ u ∈ us, sign u * sign u = 1) :
    IsBasis n P (us.map fun u => u.scale (sign u)) := by
  have lengths : ∀ v ∈ us.map (fun u => u.scale (sign u)), v.length = n := by
    simpa using basis.lengths
  have twice (ks : List Int) (size : ks.length = us.length) :
      (changeBy sign ks us).length = us.length ∧ changeBy sign (changeBy sign ks us) us = ks :=
    ⟨by simp [changeBy, size], changeBy_changeBy size square⟩
  refine basis.recode (g := (changeBy sign · us)) (h := (changeBy sign · us)) (by simp) lengths
    twice twice fun ks size => ?_
  apply combination_congr basis.lengths lengths
  intro x
  rw [dot_changeBy, List.map_map]
  apply congrArg (dot ks)
  exact List.map_congr_left fun u _ => (dot_scale x (sign u) u).symm

end IsBasis

end NetSynthesis.IntVector
