import NetSynthesis.Proofs.ListedRegions
import NetSynthesis.Proofs.RegionBasis

/-! The candidates of the basis searches where all effects are consistent. No chord asks for
anything, so that the basis are the units, and the candidates have just the effects that are -1, 0
or 1 for every event and zero for all events but two. -/
namespace NetSynthesis

open IntVector

namespace IntVector

variable {n i k : Nat} {v w : IntVector}

theorem getD_unit (bound : i < n) (k : Nat) :
    (unit n i)[k]?.getD 0 = if k = i then 1 else 0 := by
  by_cases inside : k < n
  · simp [unit, inside]
  · have off : k ≠ i := by omega
    simp [unit, inside, off]

/-- All entries are -1, 0 or 1, and no three of them are not zero. -/
structure Slight (v : IntVector) : Prop where
  small : ∀ k : Nat, -1 ≤ v[k]?.getD 0 ∧ v[k]?.getD 0 ≤ 1
  few : ∀ i j k : Nat, v[i]?.getD 0 ≠ 0 → v[j]?.getD 0 ≠ 0 → v[k]?.getD 0 ≠ 0 →
    i = j ∨ j = k ∨ i = k

theorem Slight.of_zeros (zeros : ∀ x ∈ v, x = 0) : Slight v := by
  have none (k : Nat) : v[k]?.getD 0 = 0 := by
    cases entry : v[k]? with
    | none => rfl
    | some x => exact zeros x (List.mem_of_getElem? entry)
  exact ⟨fun k => by simp [none], fun i _ _ differs => absurd (none i) differs⟩

theorem Slight.scale {c : Int} (slight : Slight v) (sign : c = 1 ∨ c = -1) :
    Slight (scale c v) := by
  have nonzero (k : Nat) (differs : (IntVector.scale c v)[k]?.getD 0 ≠ 0) :
      v[k]?.getD 0 ≠ 0 := by
    rw [getD_scale] at differs
    exact right_ne_zero_of_mul differs
  refine ⟨fun k => ?_, fun i j k hi hj hk =>
    slight.few i j k (nonzero i hi) (nonzero j hj) (nonzero k hk)⟩
  have := slight.small k
  rw [getD_scale]
  rcases sign with rfl | rfl <;> omega

theorem slight_unit (bound : i < n) : Slight (unit n i) := by
  have nonzero (k : Nat) (differs : (unit n i)[k]?.getD 0 ≠ 0) : k = i := by
    simpa [getD_unit bound] using differs
  refine ⟨fun k => ?_, fun j k _ hj hk _ => .inl ((nonzero j hj).trans (nonzero k hk).symm)⟩
  rw [getD_unit bound]
  split <;> omega

theorem slight_pair {j : Nat} {c : Int} (lower : i < j) (upper : j < n) (sign : c = 1 ∨ c = -1) :
    Slight (add (unit n i) (IntVector.scale c (unit n j))) := by
  have entry (k : Nat) : (add (unit n i) (IntVector.scale c (unit n j)))[k]?.getD 0 =
      (if k = i then 1 else 0) + c * if k = j then 1 else 0 := by
    rw [getD_add, getD_scale, getD_unit (lower.trans upper), getD_unit upper]
  have nonzero (k : Nat)
      (differs : (add (unit n i) (IntVector.scale c (unit n j)))[k]?.getD 0 ≠ 0) :
      k = i ∨ k = j := by
    by_contra neither
    rw [not_or] at neither
    simp [entry, neither] at differs
  refine ⟨fun k => ?_, fun a b c ha hb hc => ?_⟩
  · rw [entry]
    rcases sign with rfl | rfl <;> split <;> split <;> omega
  · have := nonzero a ha
    have := nonzero b hb
    have := nonzero c hc
    omega

end IntVector

/-! ### The basis -/

namespace KernelBasis

variable {n i : Nat}

theorem normalize_unit (bound : i < n) : normalize (unit n i) = unit n i := by
  have one : (1 : Int) ∈ unit n i := List.mem_map.2 ⟨i, List.mem_range.2 bound, if_pos rfl⟩
  have divisor : (unit n i).foldl (fun g x => g.gcd x.natAbs) 0 = 1 :=
    Nat.dvd_one.1 ((gcd_foldl_dvd (unit n i) 0).2 1 one)
  have reduced : (unit n i).map (· / ((1 : Nat) : Int)) = unit n i := by simp
  have positive : ((unit n i).find? (· != 0)).any (· < 0) = false := by
    rw [← Bool.not_eq_true, Option.any_eq_true]
    rintro ⟨x, found, negative⟩
    obtain ⟨j, _, rfl⟩ := List.mem_map.1 (List.mem_of_find?_eq_some found)
    split at negative <;> simp at negative
  unfold normalize
  simp only [divisor, reduced, positive, Bool.false_eq_true, if_false]

theorem of_eq_units {equations : List IntVector}
    (free : ∀ e ∈ equations, ∀ v : IntVector, e.dot v = 0) : of n equations = units n := by
  have kept : equations.foldl restrict (units n) = units n := by
    induction equations with
    | nil => rfl
    | cons e equations ih =>
      obtain ⟨first, rest⟩ := List.forall_mem_cons.1 free
      rw [List.foldl_cons, restrict_of_zeros fun u _ => first u]
      exact ih rest
  rw [of_eq, kept, units, List.map_map]
  exact List.map_congr_left fun i inside => normalize_unit (List.mem_range.1 inside)

end KernelBasis

namespace Frame

variable {f : Frame} {r q : Region f.size} {basis : List (Region f.size)} {v : IntVector}

/-! ### Pairs -/

theorem mem_pairCombinations : q ∈ f.pairCombinations basis ↔
    ∃ r p k, [r, p].Sublist basis ∧ (k = 1 ∨ k = -1) ∧
      (r.addScaled p k).makePure.isTrivial = false ∧
      (q = (r.addScaled p k).makePure ∨ q = (r.addScaled p k).makePure.negate) := by
  induction basis with
  | nil => simp [pairCombinations]
  | cons b rest ih =>
    rw [pairCombinations, List.mem_append, ih]
    simp only [List.mem_flatMap, List.mem_cons, List.not_mem_nil, or_false]
    constructor
    · rintro (⟨p, inside, k, sign, made⟩ | ⟨r, p, k, later, rest⟩)
      · split at made
        · simp at made
        · rename_i some
          exact ⟨b, p, k, (List.singleton_sublist.2 inside).cons_cons b, sign, by simpa using some,
            by simpa using made⟩
      · exact ⟨r, p, k, later.cons b, rest⟩
    · rintro ⟨r, p, k, ordered, sign, some, made⟩
      rcases List.sublist_cons_iff.1 ordered with later | ⟨_, same, inside⟩
      · exact .inr ⟨r, p, k, later, sign, some, made⟩
      · obtain ⟨rfl, rfl⟩ := List.cons.inj same
        refine .inl ⟨p, List.singleton_sublist.1 inside, k, sign, ?_⟩
        rw [if_neg (by simp [some])]
        simpa using made

theorem effect_pair (r p : Region f.size) (k : Int) :
    (r.addScaled p k).makePure.effect = add r.effect (scale k p.effect) := by
  rw [Region.effect_makePure, Region.effect_addScaled]

theorem not_isTrivial_of_effect (some : ∃ k : Nat, r.effect[k]?.getD 0 ≠ 0) :
    r.isTrivial = false := by
  rw [← Bool.not_eq_true]
  intro trivial
  obtain ⟨k, differs⟩ := some
  apply differs
  rw [Region.effect, List.getElem?_map]
  cases entry : r.weights[k]? with
  | none => rfl
  | some w =>
    have zero := List.all_eq_true.1 trivial w (List.mem_of_getElem? entry)
    simp only [Bool.and_eq_true, beq_iff_eq] at zero
    simp [Weight.effect, zero]

/-! ### Effects -/

section Free

variable (free : ∀ v : IntVector, f.Consistent v)

include free

theorem basis_eq_units :
    f.basis = (List.range f.size).map fun i => Region.ofEffect f.size (unit f.size i) := by
  have units : KernelBasis.of f.size (f.tree.chords.map f.edgeVector) =
      KernelBasis.units f.size := by
    apply KernelBasis.of_eq_units
    intro e member v
    obtain ⟨a, chord, rfl⟩ := List.mem_map.1 member
    rw [dot_comm]
    exact free v a chord
  rw [basis, units, KernelBasis.units, List.map_map]
  rfl

theorem effect_of_mem_basis (member : r ∈ f.basis) : ∃ i < f.size, r.effect = unit f.size i := by
  rw [basis_eq_units free] at member
  obtain ⟨i, inside, rfl⟩ := List.mem_map.1 member
  exact ⟨i, List.mem_range.1 inside, Region.effect_ofEffect (length_unit ..) 0⟩

theorem effects_of_pair {r p : Region f.size} (pair : [r, p].Sublist f.basis) :
    ∃ i j, i < j ∧ j < f.size ∧ r.effect = unit f.size i ∧ p.effect = unit f.size j := by
  rw [basis_eq_units free] at pair
  obtain ⟨indices, ordered, same⟩ := List.sublist_map_iff.1 pair
  match indices, same with
  | [i, j], same =>
    simp only [List.map_cons, List.map_nil, List.cons.injEq, and_true] at same
    obtain ⟨rfl, rfl⟩ := same
    have sorted := (List.pairwise_lt_range (n := f.size)).sublist ordered
    have inside := List.mem_range.1 (ordered.subset (show j ∈ [i, j] by simp))
    exact ⟨i, j, by simpa using sorted, inside, Region.effect_ofEffect (length_unit ..) 0,
      Region.effect_ofEffect (length_unit ..) 0⟩

/-- What side conditions are added to has a slight effect. -/
theorem slight_effect (member : q ∈ f.basicCandidates f.basis ++ [Region.trivial f.size]) :
    Slight q.effect := by
  rcases List.mem_append.1 member with listed | last
  swap
  · rw [List.mem_singleton.1 last]
    exact .of_zeros Region.effect_trivial
  obtain ⟨p, inside, rfl⟩ := List.mem_map.1 listed
  rw [withNormalMarking, Region.effect_withInitial]
  rw [List.mem_append, List.mem_append] at inside
  rcases inside with (single | negated) | pair
  · obtain ⟨i, bound, effect⟩ := effect_of_mem_basis free single
    exact effect ▸ slight_unit bound
  · obtain ⟨r, single, rfl⟩ := List.mem_map.1 negated
    obtain ⟨i, bound, effect⟩ := effect_of_mem_basis free single
    rw [Region.effect_negate, effect]
    exact (slight_unit bound).scale (.inr rfl)
  · obtain ⟨r, s, k, ordered, sign, _, made⟩ := mem_pairCombinations.1 pair
    obtain ⟨i, j, lower, upper, first, second⟩ := effects_of_pair free ordered
    have slight : Slight (r.addScaled s k).makePure.effect := by
      rw [effect_pair, first, second]
      exact slight_pair lower upper sign
    rcases made with rfl | rfl
    · exact slight
    · rw [Region.effect_negate]
      exact slight.scale (.inr rfl)

theorem exists_single {i : Nat} {a : Int} (bound : i < f.size) (sign : a = 1 ∨ a = -1) :
    ∃ q ∈ f.basicCandidates f.basis, q.effect = scale a (unit f.size i) := by
  have effect := Region.effect_ofEffect (length_unit f.size i) 0
  have member : Region.ofEffect f.size (unit f.size i) ∈ f.basis := by
    rw [basis_eq_units free]
    exact List.mem_map_of_mem (List.mem_range.2 bound)
  rcases sign with rfl | rfl
  · refine ⟨_, List.mem_map_of_mem (List.mem_append_left _ (List.mem_append_left _ member)), ?_⟩
    rw [withNormalMarking, Region.effect_withInitial, effect, one_scale]
  · refine ⟨_, List.mem_map_of_mem (List.mem_append_left _ (List.mem_append_right _
      (List.mem_map_of_mem member))), ?_⟩
    rw [withNormalMarking, Region.effect_withInitial, Region.effect_negate, effect]

theorem exists_pair {i j : Nat} {a b : Int} (lower : i < j) (upper : j < f.size)
    (first : a = 1 ∨ a = -1) (second : b = 1 ∨ b = -1) :
    ∃ q ∈ f.basicCandidates f.basis,
      q.effect = add (scale a (unit f.size i)) (scale b (unit f.size j)) := by
  let r (i : Nat) : Region f.size := Region.ofEffect f.size (unit f.size i)
  have effect (i : Nat) : (r i).effect = unit f.size i :=
    Region.effect_ofEffect (length_unit ..) 0
  have ordered : [r i, r j].Sublist f.basis := by
    rw [basis_eq_units free]
    have sorted : ([i] ++ [j]).Sublist (List.range f.size) := by
      rw [← Nat.add_sub_cancel' upper.le, List.range_add]
      exact (List.singleton_sublist.2 (List.mem_range.2 lower)).append (List.singleton_sublist.2
        (List.mem_map.2 ⟨0, List.mem_range.2 (Nat.sub_pos_of_lt upper), rfl⟩))
    exact sorted.map r
  have product : a * b = 1 ∨ a * b = -1 := by
    rcases first with rfl | rfl <;> rcases second with rfl | rfl <;> simp
  have combined : ((r i).addScaled (r j) (a * b)).makePure.effect =
      add (unit f.size i) (scale (a * b) (unit f.size j)) := by
    rw [effect_pair, effect, effect]
  have some : ((r i).addScaled (r j) (a * b)).makePure.isTrivial = false := by
    refine not_isTrivial_of_effect ⟨i, ?_⟩
    rw [combined, getD_add, getD_scale, getD_unit (lower.trans upper), getD_unit upper]
    simp [lower.ne]
  have listed {q : Region f.size} (made : q = ((r i).addScaled (r j) (a * b)).makePure ∨
      q = ((r i).addScaled (r j) (a * b)).makePure.negate) :
      f.withNormalMarking q ∈ f.basicCandidates f.basis :=
    List.mem_map_of_mem (List.mem_append_right _
      (mem_pairCombinations.2 ⟨_, _, _, ordered, product, some, made⟩))
  rcases first with rfl | rfl
  · refine ⟨_, listed (.inl rfl), ?_⟩
    rw [withNormalMarking, Region.effect_withInitial, combined, one_scale, Int.one_mul]
  · refine ⟨_, listed (.inr rfl), ?_⟩
    rw [withNormalMarking, Region.effect_withInitial, Region.effect_negate, combined]
    refine eq_of_getD (by simp) fun k => ?_
    simp only [getD_scale, getD_add]
    ring

/-- Every slight effect is that of a candidate. -/
theorem exists_candidate (length : v.length = f.size) (slight : Slight v) :
    ∃ q ∈ f.basicCandidates f.basis ++ [Region.trivial f.size], q.effect = v := by
  have sign (k : Nat) (differs : v[k]?.getD 0 ≠ 0) :
      k < f.size ∧ (v[k]?.getD 0 = 1 ∨ v[k]?.getD 0 = -1) := by
    have := slight.small k
    refine ⟨?_, by omega⟩
    by_contra beyond
    exact differs (by rw [List.getElem?_eq_none (by omega)]; rfl)
  have pair {i j : Nat} (lower : i < j) (hi : v[i]?.getD 0 ≠ 0) (hj : v[j]?.getD 0 ≠ 0) :
      ∃ q ∈ f.basicCandidates f.basis ++ [Region.trivial f.size], q.effect = v := by
    obtain ⟨q, listed, effect⟩ :=
      exists_pair free lower (sign j hj).1 (sign i hi).2 (sign j hj).2
    refine ⟨q, List.mem_append_left _ listed, effect.trans (eq_of_getD (by simp [length]) ?_)⟩
    intro k
    rw [getD_add, getD_scale, getD_scale, getD_unit (sign i hi).1, getD_unit (sign j hj).1]
    by_cases first : k = i
    · simp [first, lower.ne]
    by_cases second : k = j
    · simp [second, lower.ne']
    have zero : v[k]?.getD 0 = 0 := by
      by_contra differs
      have := slight.few i j k hi hj differs
      omega
    simp [first, second, zero]
  by_cases some : ∃ i : Nat, v[i]?.getD 0 ≠ 0
  swap
  · have zeros (k : Nat) : v[k]?.getD 0 = 0 := not_not.1 fun differs => some ⟨k, differs⟩
    refine ⟨_, List.mem_append_right _ (List.mem_singleton_self _), eq_of_getD ?_ fun k => ?_⟩
    · rw [length, Region.length_effect]
    · rw [zeros]
      cases entry : (Region.trivial f.size).effect[k]? with
      | none => rfl
      | some x => exact Region.effect_trivial x (List.mem_of_getElem? entry)
  obtain ⟨i, hi⟩ := some
  by_cases other : ∃ j : Nat, j ≠ i ∧ v[j]?.getD 0 ≠ 0
  · obtain ⟨j, apart, hj⟩ := other
    rcases Nat.lt_or_gt_of_ne apart with lower | lower
    · exact pair lower hj hi
    · exact pair lower hi hj
  · obtain ⟨bound, unit⟩ := sign i hi
    obtain ⟨q, listed, effect⟩ := exists_single free bound unit
    refine ⟨q, List.mem_append_left _ listed, effect.trans (eq_of_getD (by simp [length]) ?_)⟩
    intro k
    rw [getD_scale, getD_unit bound]
    by_cases same : k = i
    · simp [same]
    · have zero : v[k]?.getD 0 = 0 := not_not.1 fun differs => other ⟨k, same, differs⟩
      simp [same, zero]

end Free

end Frame

end NetSynthesis
