import Mathlib.Algebra.Order.BigOperators.Group.List
import Mathlib.Logic.Function.Iterate
import NetSynthesis.KernelBasis
import NetSynthesis.Proofs.TreeVectors

/-! Euclid's algorithm. A round that is not the last divides by a value of least size among the
nonzero ones. Remainders are smaller than this value, whatever the signs, so that the total size of
the values is lowered and the rounds come to an end, with at most one nonzero value. On a row of a
matrix the values are its entries. -/
namespace NetSynthesis.KernelBasis

open IntVector

/-! ### One round -/

theorem leastNonzero_none {xs : List Int} : leastNonzero xs = none ↔ ∀ x ∈ xs, x = 0 := by
  induction xs with
  | nil => simp [leastNonzero]
  | cons x xs ih =>
    rw [leastNonzero]
    cases tail : leastNonzero xs with
    | none =>
      have zeros := ih.1 tail
      by_cases zero : x = 0 <;> simp [zero]
      exact zeros
    | some p =>
      have some : ¬ ∀ x ∈ xs, x = 0 := fun zeros => by simp [ih.2 zeros] at tail
      simp only [List.mem_cons, forall_eq_or_imp, some, and_false, iff_false]
      split <;> simp

theorem leastNonzero_some {xs : List Int} {i m : Nat} (found : leastNonzero xs = some (i, m)) :
    ∃ x, xs[i]? = some x ∧ x ≠ 0 ∧ x.natAbs = m ∧ ∀ y ∈ xs, y ≠ 0 → m ≤ y.natAbs := by
  induction xs generalizing i m with
  | nil => simp [leastNonzero] at found
  | cons x xs ih =>
    rw [leastNonzero] at found
    cases tail : leastNonzero xs with
    | none =>
      have zeros := leastNonzero_none.1 tail
      rw [tail] at found
      by_cases zero : x = 0
      · simp [zero] at found
      · simp only [zero, if_false, Option.some.injEq, Prod.mk.injEq] at found
        obtain ⟨rfl, rfl⟩ := found
        refine ⟨x, rfl, zero, rfl, fun y member nonzero => ?_⟩
        rcases List.mem_cons.1 member with rfl | rest
        · exact le_rfl
        · exact absurd (zeros y rest) nonzero
    | some p =>
      obtain ⟨j, k⟩ := p
      obtain ⟨z, at_j, nonzero, size, least⟩ := ih tail
      rw [tail] at found
      by_cases smaller : x ≠ 0 ∧ x.natAbs ≤ k
      · simp only [smaller, ne_eq, not_false_eq_true, and_self, if_true, Option.some.injEq,
          Prod.mk.injEq] at found
        obtain ⟨rfl, rfl⟩ := found
        refine ⟨x, rfl, smaller.1, rfl, fun y member other => ?_⟩
        rcases List.mem_cons.1 member with rfl | rest
        · exact le_rfl
        · exact smaller.2.trans (least y rest other)
      · simp only [if_neg smaller, Option.some.injEq, Prod.mk.injEq] at found
        obtain ⟨rfl, rfl⟩ := found
        refine ⟨z, by simpa using at_j, nonzero, size, fun y member other => ?_⟩
        rcases List.mem_cons.1 member with rfl | rest
        · exact (Nat.lt_of_not_le fun le => smaller ⟨other, le⟩).le
        · exact least y rest other

section SwapToFront

variable {α β : Type} {i : Nat}

theorem swapToFront_head {us : List α} {v : α} (at_i : us[i]? = some v) :
    ∃ rest, swapToFront i us = v :: rest := by
  match i, us with
  | 0, u :: us =>
    obtain rfl : u = v := by simpa using at_i
    exact ⟨us, rfl⟩
  | i + 1, u :: us =>
    have tail : us[i]? = some v := by simpa using at_i
    exact ⟨us.set i u, by simp [swapToFront, tail]⟩

theorem swapToFront_perm (i : Nat) (us : List α) : (swapToFront i us).Perm us := by
  match i, us with
  | 0, _ => exact .refl _
  | _ + 1, [] => exact .refl _
  | i + 1, u :: us =>
    cases tail : us[i]? with
    | none => simp [swapToFront, tail]
    | some v =>
      obtain ⟨bound, rfl⟩ := List.getElem?_eq_some_iff.1 tail
      simp only [swapToFront, tail]
      rw [List.set_eq_take_append_cons_drop, if_pos bound]
      have back : us.take i ++ us[i] :: us.drop (i + 1) = us := by
        rw [List.getElem_cons_drop, List.take_append_drop]
      have exchange : (us.take i ++ u :: us.drop (i + 1)).Perm
          (u :: (us.take i ++ us.drop (i + 1))) := List.perm_middle
      refine (exchange.cons us[i]).trans (.trans (.swap ..) (.cons u ?_))
      exact List.perm_middle.symm.trans (.of_eq back)

theorem map_swapToFront (g : α → β) (i : Nat) (us : List α) :
    (swapToFront i us).map g = swapToFront i (us.map g) := by
  match i, us with
  | 0, _ => rfl
  | _ + 1, [] => rfl
  | i + 1, u :: us => cases at_i : us[i]? <;> simp [swapToFront, at_i]

theorem swapToFront_swapToFront (i : Nat) (us : List α) :
    swapToFront i (swapToFront i us) = us := by
  match i, us with
  | 0, _ => rfl
  | _ + 1, [] => rfl
  | i + 1, u :: us =>
    cases at_i : us[i]? with
    | none => simp [swapToFront, at_i]
    | some v =>
      obtain ⟨bound, rfl⟩ := List.getElem?_eq_some_iff.1 at_i
      simp [swapToFront, bound]

end SwapToFront

theorem natAbs_fmod_lt (x : Int) {p : Int} (nonzero : p ≠ 0) :
    (x.fmod p).natAbs < p.natAbs := by
  rw [Int.fmod_eq_emod]
  have low := Int.emod_nonneg x nonzero
  have high := Int.emod_lt x nonzero
  split
  · omega
  · rename_i other
    have divides : ¬ p ∣ x := fun d => other (.inr d)
    have positive : x % p ≠ 0 := fun zero => divides (Int.dvd_of_emod_eq_zero zero)
    omega

section Euclid

variable {α : Type} {value : α → Int} {clear : α → α → α} {xs next : List α}

theorem weight_eq_sum : weight value xs = (xs.map fun x => (value x).natAbs).sum := rfl

/-- A round finds that all values are zero, or it brings a nonzero value of least size to the front.
It is the last one if there is no other nonzero value, and else it clears the others. -/
theorem round_cases {last : Bool} (step : round value clear xs = (next, last)) :
    (last = true ∧ next = xs ∧ ∀ x ∈ xs, value x = 0) ∨
      ∃ i lead rest, swapToFront i xs = lead :: rest ∧ (lead :: rest).Perm xs ∧
        value lead ≠ 0 ∧
        (∀ x ∈ xs, value x ≠ 0 → (value lead).natAbs ≤ (value x).natAbs) ∧
        (last = true ∧ next = lead :: rest ∧ (∀ x ∈ rest, value x = 0) ∨
          last = false ∧ next = lead :: rest.map (clear lead) ∧ ∃ x ∈ rest, value x ≠ 0) := by
  rw [round] at step
  cases found : leastNonzero (xs.map value) with
  | none =>
    simp only [found, Prod.mk.injEq] at step
    exact .inl ⟨step.2.symm, step.1.symm,
      fun x member => leastNonzero_none.1 found _ (List.mem_map_of_mem member)⟩
  | some p =>
    obtain ⟨i, m⟩ := p
    obtain ⟨k, at_i, nonzero, rfl, least⟩ := leastNonzero_some found
    rw [List.getElem?_map, Option.map_eq_some_iff] at at_i
    obtain ⟨lead, at_i, rfl⟩ := at_i
    obtain ⟨rest, swapped⟩ := swapToFront_head at_i
    refine .inr ⟨i, lead, rest, swapped, swapped ▸ swapToFront_perm i xs, nonzero,
      fun x member => least _ (List.mem_map_of_mem member), ?_⟩
    simp only [found, swapped] at step
    split at step
    · rename_i zeros
      obtain ⟨rfl, rfl⟩ := Prod.mk.inj step
      exact .inl ⟨rfl, rfl, fun x member => eq_of_beq (List.all_eq_true.1 zeros x member)⟩
    · rename_i notZeros
      obtain ⟨rfl, rfl⟩ := Prod.mk.inj step
      exact .inr ⟨rfl, rfl, by simpa using notZeros⟩

variable (remainder : ∀ lead x, value (clear lead x) = (value x).fmod (value lead))

include remainder

theorem weight_clear_lt {lead : α} {rest : List α} (perm : (lead :: rest).Perm xs)
    (nonzero : value lead ≠ 0)
    (least : ∀ x ∈ xs, value x ≠ 0 → (value lead).natAbs ≤ (value x).natAbs)
    (some : ∃ x ∈ rest, value x ≠ 0) :
    weight value (lead :: rest.map (clear lead)) < weight value xs := by
  have shrinks : ∀ x ∈ rest, (value (clear lead x)).natAbs ≤ (value x).natAbs ∧
      (value x ≠ 0 → (value (clear lead x)).natAbs < (value x).natAbs) := by
    intro x member
    rw [remainder]
    have smaller := natAbs_fmod_lt (value x) nonzero
    by_cases zero : value x = 0
    · simp [zero]
    · have := least x (perm.subset (List.mem_cons_of_mem _ member)) zero
      exact ⟨by omega, fun _ => by omega⟩
  have split : weight value xs = (value lead).natAbs +
      (rest.map fun x => (value x).natAbs).sum := by
    rw [weight_eq_sum, ← (perm.map _).sum_nat]
    simp
  rw [split, weight_eq_sum, List.map_cons, List.sum_cons, List.map_map, Nat.add_lt_add_iff_left]
  obtain ⟨x, member, differs⟩ := some
  exact List.sum_lt_sum _ _ (fun y inside => (shrinks y inside).1)
    ⟨x, member, (shrinks x member).2 differs⟩

/-- A round that is not the last lowers the total size. -/
theorem weight_round_lt (step : round value clear xs = (next, false)) :
    weight value next < weight value xs := by
  rcases round_cases step with ⟨wrong, _⟩ |
    ⟨_, lead, rest, _, perm, nonzero, least, ⟨wrong, _⟩ | ⟨_, rfl, some⟩⟩
  · simp at wrong
  · simp at wrong
  · exact weight_clear_lt remainder perm nonzero least some

/-! ### All rounds -/

theorem rounds_of_enough {i j : Nat} (enough : weight value xs < i)
    (enough' : weight value xs < j) : rounds value clear i xs = rounds value clear j xs := by
  induction i generalizing xs j with
  | zero => simp at enough
  | succ i ih =>
    obtain ⟨j, rfl⟩ : ∃ m, j = m + 1 := Nat.exists_eq_add_one.2 (Nat.zero_lt_of_lt enough')
    rw [rounds, rounds]
    cases step : round value clear xs with
    | mk next last =>
      cases last with
      | true => rfl
      | false =>
        have lower := weight_round_lt remainder step
        exact ih (by omega) (by omega)

theorem euclid_of_round {last : Bool} (step : round value clear xs = (next, last)) :
    euclid value clear xs = if last then next else euclid value clear next := by
  rw [euclid, rounds, step]
  cases last with
  | true => rfl
  | false =>
    have lower := weight_round_lt remainder step
    exact rounds_of_enough remainder lower (Nat.lt_succ_self _)

/-- What holds if exchanges and clearing keep it holds at the end. -/
theorem euclid_invariant {P : List α → Prop} (swap : ∀ xs i, P xs → P (swapToFront i xs))
    (clears : ∀ lead rest, P (lead :: rest) → P (lead :: rest.map (clear lead))) (start : P xs) :
    P (euclid value clear xs) := by
  generalize size : weight value xs = m
  induction m using Nat.strongRecOn generalizing xs with
  | ind m ih =>
    cases step : round value clear xs with
    | mk next last =>
      rw [euclid_of_round remainder step]
      rcases round_cases step with ⟨rfl, rfl, _⟩ |
        ⟨i, lead, rest, swapped, _, _, _, ⟨rfl, rfl, _⟩ | ⟨rfl, rfl, _⟩⟩
      · exact start
      · exact swapped ▸ swap xs i start
      · have lower := weight_round_lt remainder step
        exact ih _ (size ▸ lower) (clears _ _ (swapped ▸ swap xs i start)) rfl

theorem euclid_cases : (∀ x ∈ euclid value clear xs, value x = 0) ∨ ∃ lead rest,
    euclid value clear xs = lead :: rest ∧ value lead ≠ 0 ∧ ∀ x ∈ rest, value x = 0 := by
  generalize size : weight value xs = m
  induction m using Nat.strongRecOn generalizing xs with
  | ind m ih =>
    cases step : round value clear xs with
    | mk next last =>
      rw [euclid_of_round remainder step]
      rcases round_cases step with ⟨rfl, rfl, zeros⟩ |
        ⟨_, lead, rest, _, _, nonzero, _, ⟨rfl, rfl, zeros⟩ | ⟨rfl, rfl, _⟩⟩
      · exact .inl zeros
      · exact .inr ⟨lead, rest, rfl, nonzero, zeros⟩
      · have lower := weight_round_lt remainder step
        exact ih _ (size ▸ lower) rfl

theorem countP_euclid : (euclid value clear xs).countP (value · ≠ 0) ≤ 1 := by
  have none (ys : List α) (zeros : ∀ y ∈ ys, value y = 0) : ys.countP (value · ≠ 0) = 0 := by
    apply List.countP_eq_zero.2
    intro y member
    simp [zeros y member]
  rcases euclid_cases remainder with zeros | ⟨lead, rest, result, _, zeros⟩
  · exact (none _ zeros).trans_le (Nat.zero_le 1)
  · rw [result, List.countP_cons, none rest zeros]
    split <;> omega

theorem exists_last_round : ∃ k ≤ weight value xs,
    (∀ i < k, (round value clear ((fun ys => (round value clear ys).1)^[i] xs)).2 = false) ∧
      round value clear ((fun ys => (round value clear ys).1)^[k] xs) =
        (euclid value clear xs, true) := by
  generalize size : weight value xs = m
  induction m using Nat.strongRecOn generalizing xs with
  | ind m ih =>
    cases step : round value clear xs with
    | mk next last =>
      have result := euclid_of_round remainder step
      cases last with
      | true => exact ⟨0, Nat.zero_le _, by simp, by rw [result]; exact step⟩
      | false =>
        have lower := weight_round_lt remainder step
        obtain ⟨k, few, repeated, finish⟩ := @ih _ (size ▸ lower) next rfl
        have later (i : Nat) : (fun ys => (round value clear ys).1)^[i + 1] xs =
            (fun ys => (round value clear ys).1)^[i] next := by
          rw [Function.iterate_succ_apply, step]
        refine ⟨k + 1, by omega, fun i before => ?_, ?_⟩
        · cases i with
          | zero => exact congrArg Prod.snd step
          | succ i => rw [later]; exact repeated i (by omega)
        · rw [later, finish, result]
          rfl

end Euclid

/-! ### Rows -/

variable {row : Nat} {columns next : List Column}

theorem entry_clear (lead c : Column) :
    (Column.clear row lead c).entry row = (c.entry row).fmod (lead.entry row) := by
  rw [Column.clear]
  split
  · rename_i zero
    rw [zero, Int.zero_fmod]
  · simp only [Column.entry, IntVector.sub, getD_add, getD_scale, Int.fmod_def]
    rw [Int.mul_comm (lead.entries[row]?.getD 0)]
    omega

/-- What a round does to the columns of a matrix if it is not the last. A column with a nonzero
entry of least size in the row comes to the front, and another one has a nonzero entry too. From
every other column with a nonzero entry the multiple of the first is subtracted that is given by the
floor quotient of the entries. -/
def Reduces (row : Nat) (matrix next : List IntVector) : Prop :=
  let entry (u : IntVector) : Int := u[row]?.getD 0
  ∃ i lead rest, swapToFront i matrix = lead :: rest ∧ entry lead ≠ 0 ∧
    (∀ u ∈ matrix, entry u ≠ 0 → (entry lead).natAbs ≤ (entry u).natAbs) ∧
    (∃ u ∈ rest, entry u ≠ 0) ∧
    next = lead :: rest.map fun u =>
      if entry u = 0 then u else u.sub (lead.scale ((entry u).fdiv (entry lead)))

theorem reduces_of_round
    (step : round (Column.entry row) (Column.clear row) columns = (next, false)) :
    Reduces row (columns.map (·.entries)) (next.map (·.entries)) := by
  rcases round_cases step with ⟨wrong, _⟩ |
    ⟨i, lead, rest, swapped, _, nonzero, least, ⟨wrong, _⟩ | ⟨_, rfl, c, member, other⟩⟩
  · simp at wrong
  · simp at wrong
  refine ⟨i, lead.entries, rest.map (·.entries), ?_, nonzero, ?_, ?_, ?_⟩
  · rw [← map_swapToFront, swapped, List.map_cons]
  · exact List.forall_mem_map.2 least
  · exact ⟨_, List.mem_map_of_mem member, other⟩
  · rw [List.map_cons, List.map_map, List.map_map]
    congr 1
    apply List.map_congr_left
    intro d _
    rw [Function.comp_apply, Function.comp_apply, Column.clear]
    split <;> simp_all [Column.entry]

/-- Euclid's algorithm ends on every row of every matrix. All rounds but the last divide by nonzero
entries only, and what the last one leaves has at most one nonzero entry in the row. -/
theorem rounds_end (columns : List Column) (row : Nat) :
    let step := round (Column.entry row) (Column.clear row)
    let after (i : Nat) := (fun cs => (step cs).1)^[i] columns
    let matrix (i : Nat) := (after i).map (·.entries)
    let result := euclid (Column.entry row) (Column.clear row) columns
    ∃ k ≤ weight (Column.entry row) columns,
      (∀ i < k, (step (after i)).2 = false ∧ Reduces row (matrix i) (matrix (i + 1))) ∧
      step (after k) = (result, true) ∧
      (result.map (·.entries)).countP (·[row]?.getD 0 ≠ 0) ≤ 1 := by
  intro step after matrix result
  obtain ⟨k, few, repeated, finish⟩ :=
    @exists_last_round _ (Column.entry row) (Column.clear row) columns entry_clear
  refine ⟨k, few, fun i before => ⟨repeated i before, ?_⟩, finish, ?_⟩
  · have next : after (i + 1) = (step (after i)).1 := Function.iterate_succ_apply' _ i columns
    apply reduces_of_round
    rw [next]
    exact Prod.ext rfl (repeated i before)
  · rw [List.countP_map]
    exact countP_euclid entry_clear

example : ((List.range 3).map fun i =>
      ((fun cs => (round (Column.entry 0) (Column.clear 0) cs).1)^[i]
        (Reduction.start 2 [[6, -4], [1, 1]]).columns).map (·.entries)) =
    [[[6, 1], [-4, 1]], [[-4, 1], [-2, 3]], [[-2, 3], [0, -5]]] := by decide

end NetSynthesis.KernelBasis
