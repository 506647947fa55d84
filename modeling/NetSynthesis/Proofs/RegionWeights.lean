import NetSynthesis.Proofs.TreeVectors

/-! Weights and effects of regions. A region is known by its weights at the positions of the events,
and what the operations on regions do to the weights says what they do to the effects. -/
namespace NetSynthesis

open IntVector

namespace Weight

@[simp] theorem effect_ofEffect (x : Int) : (ofEffect x).effect = x := by
  simp only [ofEffect, effect]; omega

theorem backward_scale (k : Int) (w : Weight) :
    ((w.scale k).backward : Int) = if 0 ≤ k then k * w.backward else -k * w.forward := by
  unfold scale
  split
  · rename_i positive
    rw [Int.natCast_mul, Int.natAbs_of_nonneg positive]
  · rename_i negative
    rw [Int.natCast_mul, show (k.natAbs : Int) = -k by omega]

theorem forward_scale (k : Int) (w : Weight) :
    ((w.scale k).forward : Int) = if 0 ≤ k then k * w.forward else -k * w.backward := by
  unfold scale
  split
  · rename_i positive
    rw [Int.natCast_mul, Int.natAbs_of_nonneg positive]
  · rename_i negative
    rw [Int.natCast_mul, show (k.natAbs : Int) = -k by omega]

theorem effect_scale (k : Int) (w : Weight) : (w.scale k).effect = k * w.effect := by
  rw [effect, effect, backward_scale, forward_scale]
  split <;> grind

theorem effect_add (w v : Weight) : (w.add v).effect = w.effect + v.effect := by
  simp only [add, effect, Int.natCast_add]; omega

end Weight

namespace Region

variable {n : Nat} {r : Region n} {i : Nat}

@[simp] theorem length_effect (r : Region n) : r.effect.length = n := by
  simp [effect, r.length_eq]

@[simp] theorem length_backward (r : Region n) : r.backward.length = n := by
  simp [backward, r.length_eq]

@[simp] theorem length_forward (r : Region n) : r.forward.length = n := by
  simp [forward, r.length_eq]

theorem getElem?_weights (r : Region n) (inside : i < n) : r.weights[i]? = some (r.weightAt i) := by
  have listed : i < r.weights.length := by rwa [r.length_eq]
  rw [weightAt, List.getElem?_eq_getElem listed, Option.getD_some]

theorem weightAt_beyond (r : Region n) (beyond : n ≤ i) : r.weightAt i = {} := by
  rw [weightAt, List.getElem?_eq_none (by rwa [r.length_eq]), Option.getD_none]

theorem getD_effect (r : Region n) (i : Nat) : r.effect[i]?.getD 0 = (r.weightAt i).effect := by
  rw [effect, List.getElem?_map, weightAt]
  cases r.weights[i]? <;> rfl

theorem getD_backward (r : Region n) (i : Nat) :
    r.backward[i]?.getD 0 = ((r.weightAt i).backward : Int) := by
  rw [backward, List.getElem?_map, weightAt]
  cases r.weights[i]? <;> rfl

theorem getD_forward (r : Region n) (i : Nat) :
    r.forward[i]?.getD 0 = ((r.weightAt i).forward : Int) := by
  rw [forward, List.getElem?_map, weightAt]
  cases r.weights[i]? <;> rfl

theorem weights_eq (r : Region n) : r.weights = (List.range n).map r.weightAt := by
  apply List.ext_getElem?
  intro i
  by_cases inside : i < n
  · simp [r.getElem?_weights inside, inside]
  · rw [List.getElem?_eq_none (by rw [r.length_eq]; omega),
      List.getElem?_eq_none (by simpa using inside)]

theorem backward_eq (r : Region n) :
    r.backward = (List.range n).map fun i => ((r.weightAt i).backward : Int) := by
  rw [backward, weights_eq, List.map_map]
  rfl

theorem forward_eq (r : Region n) :
    r.forward = (List.range n).map fun i => ((r.weightAt i).forward : Int) := by
  rw [forward, weights_eq, List.map_map]
  rfl

theorem forall_weights {p : Weight → Prop} :
    (∀ w ∈ r.weights, p w) ↔ ∀ i < n, p (r.weightAt i) := by
  rw [weights_eq, List.forall_mem_map]
  simp only [List.mem_range]

theorem isPure_iff : r.isPure = true ↔
    ∀ i < n, (r.weightAt i).forward = 0 ∨ (r.weightAt i).backward = 0 := by
  simp only [isPure, List.all_eq_true, Bool.or_eq_true, beq_iff_eq]
  exact forall_weights

theorem isPlain_iff : r.isPlain = true ↔
    ∀ i < n, (r.weightAt i).forward ≤ 1 ∧ (r.weightAt i).backward ≤ 1 := by
  simp only [isPlain, List.all_eq_true, Bool.and_eq_true, decide_eq_true_eq]
  exact forall_weights

/-! ### Construction -/

theorem zipWith_entries (ws : List Weight) :
    List.zipWith (fun b f : Int => (⟨b.toNat, f.toNat⟩ : Weight))
      (ws.map fun w => (w.backward : Int)) (ws.map fun w => (w.forward : Int)) = ws := by
  induction ws with
  | nil => rfl
  | cons w ws ih => simp [ih]

theorem of_eq_ok_iff {events : List String} {m : Int} {b w : IntVector}
    {r : Region events.length} :
    Region.of events b w m = .ok r ↔ r.initial = m ∧ r.backward = b ∧ r.forward = w := by
  rw [Region.of]
  constructor
  · intro made
    split at made
    swap
    · simp at made
    rename_i lengths
    split at made
    swap
    · simp at made
    rename_i nonneg
    obtain rfl := Except.ok.inj made
    simp only [Bool.and_eq_true, List.all_eq_true, decide_eq_true_eq] at nonneg
    refine ⟨rfl, ?_, ?_⟩
    · apply List.ext_getElem (by simp [lengths])
      intro i _ inside
      simpa [backward] using nonneg.1 _ (List.getElem_mem inside)
    · apply List.ext_getElem (by simp [lengths])
      intro i _ inside
      simpa [forward] using nonneg.2 _ (List.getElem_mem inside)
  · rintro ⟨rfl, rfl, rfl⟩
    have lengths : r.backward.length = events.length ∧ r.forward.length = events.length := by simp
    have nonneg : (r.backward.all (0 ≤ ·) && r.forward.all (0 ≤ ·)) = true := by
      simp [backward, forward]
    rw [dif_pos lengths, if_pos nonneg, Except.ok.injEq]
    obtain ⟨ws, m, length⟩ := r
    simp only [backward, forward, Region.mk.injEq, and_true]
    exact zipWith_entries ws

theorem weightAt_ofEffect {v : IntVector} (length : v.length = n) (k : Int) (i : Nat) :
    (ofEffect n v k).weightAt i = .ofEffect (v[i]?.getD 0) := by
  by_cases inside : i < n
  · simp [weightAt, ofEffect, inside]
  · rw [weightAt_beyond _ (Nat.not_lt.1 inside), List.getElem?_eq_none (by omega)]
    rfl

theorem ofVector_eq {events : List String} {v : IntVector} (length : v.length = events.length)
    (k : Int) : ofVector events v k = .ok (ofEffect events.length v k) := by
  refine of_eq_ok_iff.2 ⟨rfl, ?_, ?_⟩
  · refine eq_of_getD (by simp [length]) fun i => ?_
    rw [getD_backward, weightAt_ofEffect length, List.getElem?_map]
    cases v[i]? with
    | none => rfl
    | some x => simp only [Weight.ofEffect, Option.map_some, Option.getD_some]; omega
  · refine eq_of_getD (by simp [length]) fun i => ?_
    rw [getD_forward, weightAt_ofEffect length, List.getElem?_map]
    cases v[i]? with
    | none => rfl
    | some x => simp only [Weight.ofEffect, Option.map_some, Option.getD_some]; omega

/-! ### Effects -/

@[simp] theorem effect_withInitial (r : Region n) (k : Int) : (r.withInitial k).effect = r.effect :=
  rfl

theorem effect_makePure (r : Region n) : r.makePure.effect = r.effect := by
  simp [makePure, effect, Function.comp_def]

theorem effect_negate (r : Region n) : r.negate.effect = scale (-1) r.effect := by
  simp [negate, effect, scale, Function.comp_def]

theorem effect_ofEffect {v : IntVector} (length : v.length = n) (k : Int) :
    (ofEffect n v k).effect = v := by
  refine eq_of_getD (by simp [length]) fun i => ?_
  rw [getD_effect, weightAt_ofEffect length, Weight.effect_ofEffect]

theorem effect_trivial : ∀ x ∈ (trivial n).effect, x = 0 := by
  simp [trivial, effect, Weight.effect]

theorem weightAt_addScaled (r q : Region n) (k : Int) (i : Nat) :
    (r.addScaled q k).weightAt i = (r.weightAt i).add ((q.weightAt i).scale k) := by
  by_cases inside : i < n
  · rw [weightAt, addScaled, List.getElem?_zipWith, r.getElem?_weights inside,
      q.getElem?_weights inside]
    rfl
  · simp [weightAt_beyond _ (Nat.not_lt.1 inside), Weight.add, Weight.scale]

theorem effect_addScaled (r q : Region n) (k : Int) :
    (r.addScaled q k).effect = add r.effect (scale k q.effect) := by
  refine eq_of_getD (by simp) fun i => ?_
  rw [getD_effect, weightAt_addScaled, Weight.effect_add, Weight.effect_scale, getD_add, getD_scale,
    getD_effect, getD_effect]

theorem weightAt_setWeight (r : Region n) (inside : i < n) (w : Weight) :
    (r.setWeight i w).weightAt i = w := by
  simp [weightAt, setWeight, r.length_eq, inside]

theorem weightAt_setWeight_ne (r : Region n) {j : Nat} (other : i ≠ j) (w : Weight) :
    (r.setWeight i w).weightAt j = r.weightAt j := by
  simp [weightAt, setWeight, List.getElem?_set_ne other]

theorem effect_setWeight (r : Region n) (i : Nat) {w : Weight}
    (same : w.effect = (r.weightAt i).effect) : (r.setWeight i w).effect = r.effect := by
  refine eq_of_getD (by simp) fun j => ?_
  rw [getD_effect, getD_effect]
  by_cases here : i = j
  · subst here
    by_cases inside : i < n
    · rw [r.weightAt_setWeight inside, same]
    · rw [weightAt_beyond _ (Nat.not_lt.1 inside), weightAt_beyond _ (Nat.not_lt.1 inside)]
  · rw [r.weightAt_setWeight_ne here]

/-! ### Purity -/

theorem isPure_of_weights (pure : ∀ w ∈ r.weights, ∃ x, w = .ofEffect x) : r.isPure = true := by
  rw [isPure, List.all_eq_true]
  intro w member
  obtain ⟨x, rfl⟩ := pure w member
  simp only [Weight.ofEffect, Bool.or_eq_true, beq_iff_eq]
  omega

theorem isPure_ofEffect (v : IntVector) (k : Int) : (ofEffect n v k).isPure = true := by
  refine isPure_of_weights fun w member => ?_
  obtain ⟨i, _, rfl⟩ := List.mem_map.1 member
  exact ⟨_, rfl⟩

theorem isPure_makePure (r : Region n) : r.makePure.isPure = true := by
  refine isPure_of_weights fun w member => ?_
  obtain ⟨x, _, rfl⟩ := List.mem_map.1 member
  exact ⟨x, rfl⟩

theorem isPure_negate (r : Region n) : r.negate.isPure = true := by
  refine isPure_of_weights fun w member => ?_
  obtain ⟨x, _, rfl⟩ := List.mem_map.1 member
  exact ⟨-x, rfl⟩

end Region

end NetSynthesis
