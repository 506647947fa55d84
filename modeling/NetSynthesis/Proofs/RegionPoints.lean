import NetSynthesis.Proofs.ValidRegions
import NetSynthesis.SeparationProgram

/-! Regions as points. A point that starts with the tokens and weights of a region gives the forms
of a program their meaning: the effect of the region on a vector, its tokens in a state, one of its
weights, or a switch after them. -/
namespace NetSynthesis.SeparationProgram

open IntVector

variable {n : Nat} {r : Region n} {switches x : IntVector}

/-- The value of a variable, zero beyond the end. -/
def value (x : IntVector) (i : Nat) : Int := x[i]?.getD 0

/-- The point of a region and some switches. -/
def point (r : Region n) (switches : IntVector) : IntVector :=
  r.initial :: (r.backward ++ (r.forward ++ switches))

/-! ### Forms -/

theorem dot_append {u v : IntVector} (u' v' : IntVector) (length : u.length = v.length) :
    dot (u ++ u') (v ++ v') = dot u v + dot u' v' := by
  induction u generalizing v with
  | nil => simp [List.eq_nil_of_length_eq_zero length.symm, dot]
  | cons a u ih =>
    cases v with
    | nil => simp at length
    | cons b v => simp [dot, ih (by simpa using length), Int.add_assoc]

theorem dot_entry (i : Nat) (k : Int) (x : IntVector) : dot (entry i k) x = k * value x i := by
  induction i generalizing x with
  | zero => cases x <;> simp [entry, value, dot]
  | succ i ih =>
    cases x with
    | nil => simp [value]
    | cons a x =>
      have tail := ih x
      simpa [entry, value, List.replicate_succ, dot] using tail

theorem dot_sumOf (forms : List IntVector) (x : IntVector) :
    dot (sumOf forms) x = (forms.map (dot · x)).sum := by
  have general : ∀ start, dot (forms.foldl .add start) x =
      dot start x + (forms.map (dot · x)).sum := by
    induction forms with
    | nil => simp
    | cons form forms ih => intro start; simp [ih, add_dot, Int.add_assoc]
  simpa [sumOf, dot] using general []

theorem effect_dot (r : Region n) (v : IntVector) :
    r.effect.dot v = dot v r.forward - dot v r.backward := by
  unfold Region.effect Region.forward Region.backward
  generalize r.weights = ws
  induction ws generalizing v with
  | nil => simp [dot]
  | cons w ws ih =>
    cases v with
    | nil => simp [dot]
    | cons y v =>
      have first : w.effect * y = y * w.forward - y * w.backward := by
        rw [Weight.effect, Int.sub_mul, Int.mul_comm, Int.mul_comm (w.backward : Int)]
      simp only [List.map_cons, dot, ih v, first]
      omega

theorem dot_scale_append {v : IntVector} (length : v.length = n) :
    dot (v.scale (-1) ++ v) (r.backward ++ (r.forward ++ switches)) = r.effect.dot v := by
  have tail : dot (v ++ []) (r.forward ++ switches) = dot v r.forward + dot [] switches :=
    dot_append _ _ (by simp [length])
  rw [List.append_nil, dot, Int.add_zero] at tail
  rw [dot_append _ _ (by simp [length]), scale_dot, tail, effect_dot]
  omega

theorem dot_effectForm {v : IntVector} (length : v.length = n) :
    dot (effectForm v) (point r switches) = r.effect.dot v := by
  rw [effectForm, point, dot, dot_scale_append length]; omega

theorem dot_markingForm {v : IntVector} (length : v.length = n) :
    dot (markingForm v) (point r switches) = r.tokensAfter v := by
  rw [markingForm, point, dot, dot_scale_append length, Region.tokensAfter]; omega

/-! ### Variables -/

theorem value_backward {i : Nat} (bound : i < n) :
    value (point r switches) (backward i) = (r.weightAt i).backward := by
  rw [value, point, backward, Nat.add_comm, List.getElem?_cons_succ,
    List.getElem?_append_left (by simpa using bound), r.getD_backward]

theorem value_forward {i : Nat} (bound : i < n) :
    value (point r switches) (forward n i) = (r.weightAt i).forward := by
  have position : forward n i = (n + i) + 1 := by rw [forward]; omega
  rw [value, point, position, List.getElem?_cons_succ,
    List.getElem?_append_right (by simp), Region.length_backward, Nat.add_sub_cancel_left,
    List.getElem?_append_left (by simpa using bound), r.getD_forward]

theorem value_switch (k : Nat) :
    value (point r switches) (1 + 2 * n + k) = value switches k := by
  have position : 1 + 2 * n + k = (n + (n + k)) + 1 := by omega
  rw [value, point, position, List.getElem?_cons_succ,
    List.getElem?_append_right (by simp), Region.length_backward, Nat.add_sub_cancel_left,
    List.getElem?_append_right (by simp), Region.length_forward, Nat.add_sub_cancel_left, value]

/-! ### From points to regions -/

theorem weightAt_regionOf {i : Nat} (bound : i < n) : (regionOf n x).weightAt i =
    ⟨(value x (backward i)).toNat, (value x (forward n i)).toNat⟩ := by
  simp [regionOf, Region.weightAt, value, bound]

theorem eq_point (long : 1 + 2 * n ≤ x.length) (nonneg : ∀ k ∈ x, 0 ≤ k) :
    x = point (regionOf n x) (x.drop (1 + 2 * n)) := by
  have sign : ∀ i, 0 ≤ value x i := by
    intro i
    rw [value]
    cases entry : x[i]? with
    | none => simp
    | some k => exact nonneg k (List.mem_of_getElem? entry)
  refine eq_of_getD (by simp [point]; omega) fun i => ?_
  change value x i = value (point _ _) i
  by_cases first : i = 0
  · subst first
    cases x <;> rfl
  by_cases takes : i ≤ n
  · obtain ⟨k, rfl⟩ : ∃ k, i = backward k := ⟨i - 1, by rw [backward]; omega⟩
    have bound : k < n := by rw [backward] at takes; omega
    rw [value_backward bound, weightAt_regionOf bound]
    exact (Int.toNat_of_nonneg (sign _)).symm
  by_cases puts : i ≤ 2 * n
  · obtain ⟨k, rfl⟩ : ∃ k, i = forward n k := ⟨i - 1 - n, by rw [forward]; omega⟩
    have bound : k < n := by rw [forward] at puts; omega
    rw [value_forward bound, weightAt_regionOf bound]
    exact (Int.toNat_of_nonneg (sign _)).symm
  · obtain ⟨k, rfl⟩ : ∃ k, i = 1 + 2 * n + k := ⟨i - (1 + 2 * n), by omega⟩
    rw [value_switch, value, value, List.getElem?_drop]

end NetSynthesis.SeparationProgram
