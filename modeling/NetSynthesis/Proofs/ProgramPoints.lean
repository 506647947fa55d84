import NetSynthesis.Proofs.SwitchRows

/-! The points of a program. The feasible points are those of the valid regions in the class of nets
with weights in their bounds, each with switches that satisfy their rows. -/
namespace NetSynthesis

open IntVector SeparationProgram

namespace SeparationProgram

/-- The weights are within a bound, and only the events in `consumers` take tokens. -/
structure Fits {n : Nat} (bound : Nat) (consumers : Option (List Nat)) (r : Region n) : Prop where
  backward : ∀ i < n, (r.weightAt i).backward ≤ bound
  forward : ∀ i < n, (r.weightAt i).forward ≤ bound
  consumers : ∀ l ∈ consumers, ∀ i ∈ r.consumers, i ∈ l

theorem Fits.within {n bound : Nat} {consumers : Option (List Nat)} {r : Region n}
    (fits : Fits bound consumers r) :
    ∀ i < n, (r.weightAt i).backward ≤ bound ∧ (r.weightAt i).forward ≤ bound :=
  fun i inside => ⟨fits.backward i inside, fits.forward i inside⟩

/-- A region that fits some consumers fits if any event may take tokens. -/
theorem Fits.anywhere {n bound : Nat} {consumers : Option (List Nat)} {r : Region n}
    (fits : Fits bound consumers r) : Fits bound none r :=
  ⟨fits.backward, fits.forward, by simp⟩

theorem fits_iff {n bound : Nat} {consumers : Option (List Nat)} {r : Region n} :
    Fits bound consumers r ↔ (∀ i < n, ((r.weightAt i).backward : Int) ≤
      if consumers.all (·.contains i) then (bound : Int) else 0) ∧
        ∀ i < n, ((r.weightAt i).forward : Int) ≤ bound := by
  constructor
  · intro fits
    refine ⟨fun i inside => ?_, fun i inside => Int.ofNat_le.2 (fits.forward i inside)⟩
    split
    · exact Int.ofNat_le.2 (fits.backward i inside)
    · rename_i excluded
      by_contra takes
      apply excluded
      cases given : consumers with
      | none => rfl
      | some l =>
        have listed := fits.consumers l given i (mem_consumers.2 ⟨inside, by omega⟩)
        simpa using listed
  · rintro ⟨backward, forward⟩
    refine ⟨fun i inside => ?_, fun i inside => Int.ofNat_le.1 (forward i inside),
      fun l given i consumes => ?_⟩
    · have most := backward i inside
      split at most <;> omega
    · obtain ⟨inside, takes⟩ := mem_consumers.1 consumes
      have most := backward i inside
      rw [Option.mem_def.1 given] at most
      by_contra missing
      rw [if_neg (by simpa using missing)] at most
      omega

end SeparationProgram

namespace Frame

variable {f : Frame} {root : State} {c : NetClass} {consumers : Option (List Nat)}
  {b : ProgramBounds} {heavy : Nat} {r : Region f.size} {switches x : IntVector}

theorem bound_le_iff (rooted : f.Rooted root) {k : Int} :
    f.bound r ≤ k ↔ ∀ s, f.isReachable s = true → f.tokens r s ≤ k := by
  have some : f.reachable.map (f.tokens r) ≠ [] := by
    refine List.ne_nil_of_mem (List.mem_map_of_mem (mem_reachable.2 rooted.isReachable_root))
  cases most : (f.reachable.map (f.tokens r)).max? with
  | none => exact absurd (List.max?_eq_none_iff.1 most) some
  | some m =>
    rw [bound, most, Option.getD_some, List.max?_le_iff most]
    constructor
    · intro all s found
      exact all _ (List.mem_map_of_mem (mem_reachable.2 found))
    · intro all b member
      obtain ⟨s, listed, rfl⟩ := List.mem_map.1 member
      exact all s (mem_reachable.1 listed)

/-! ### Rows -/

theorem cycleRow_holds (rooted : f.Rooted root) {a : Arc} (chord : a ∈ f.tree.chords) :
    ({ form := effectForm (f.edgeVector a), lower := some 0, upper := some 0 } : Row).holds
      (point r switches) = true ↔ r.effect.dot (f.edgeVector a) = 0 := by
  obtain ⟨_, source, target⟩ := rooted.chord_spec chord
  rw [Row.holds, dot_effectForm (length_edgeVector source target)]
  simp only [Option.all_some, Bool.and_eq_true, decide_eq_true_eq]
  omega

theorem stateRow_holds {s : State} (found : f.isReachable s = true) {most : Option Int} :
    ({ form := markingForm (f.vector s), lower := some 0, upper := most } : Row).holds
      (point r switches) = true ↔ 0 ≤ f.tokens r s ∧ ∀ k ∈ most, f.tokens r s ≤ k := by
  rw [Row.holds, dot_markingForm (length_vector found)]
  cases most <;> simp [tokens]

theorem arcRow_holds (rooted : f.Rooted root) {s : State} (found : f.isReachable s = true) {a : Arc}
    (edge : a ∈ f.graph.outgoing s) :
    ({ form := (markingForm (f.vector s)).add
        (entry (SeparationProgram.backward ((f.eventIndex? a.label).getD 0)) (-1)),
       lower := some 0 } : Row).holds (point r switches) = true ↔
      ((f.weightOf r a.label).backward : Int) ≤ f.tokens r s := by
  obtain ⟨i, index, inside⟩ :=
    rooted.eventIndex?_of_arc (rooted.wellFormed.mem_outgoing.1 edge).1
  rw [holds_lower, add_dot, dot_markingForm (length_vector found), dot_entry, index,
    Option.getD_some, value_backward inside, weightOf, index]
  simp only [Option.map_some, Option.getD_some, tokens]
  omega

/-! ### Ranges -/

theorem forall_zip_replicate {α β : Type} {p : α × β → Prop} {a : α} {n : Nat} {xs : List β}
    (length : xs.length = n) :
    (∀ q ∈ (List.replicate n a).zip xs, p q) ↔ ∀ x ∈ xs, p (a, x) := by
  induction xs generalizing n with
  | nil => simp
  | cons x xs ih =>
    subst length
    rw [List.length_cons, List.replicate_succ, List.zip_cons_cons, List.forall_mem_cons,
      List.forall_mem_cons, ih rfl]

theorem length_point : (point r switches).length =
    (f.programWithin c consumers b heavy).uppers.length ↔
    switches.length = switchCount f.size c := by
  simp only [programWithin, point, List.length_append, List.length_cons, List.length_map,
    List.length_range, List.length_replicate, Region.length_backward, Region.length_forward]
  omega

/-- The variables with their values: tokens, weights and switches. -/
theorem uppers_zip_point : (f.programWithin c consumers b heavy).uppers.zip (point r switches) =
    (b.tokens.map fun (k : Nat) => (k : Int), r.initial) ::
      ((List.range f.size).map (fun i => (some
        (if consumers.all (·.contains i) then (b.weight : Int) else 0),
          ((r.weightAt i).backward : Int))) ++
      ((List.range f.size).map (fun i => (some (b.weight : Int),
          ((r.weightAt i).forward : Int))) ++
        (List.replicate (switchCount f.size c) (some 1)).zip switches)) := by
  have puts : List.replicate f.size (some (b.weight : Int)) =
      (List.range f.size).map fun _ => some (b.weight : Int) := by simp
  simp only [programWithin, point, List.cons_append, List.append_assoc, List.zip_cons_cons]
  rw [List.zip_append (by simp), List.zip_append (by simp), puts, r.backward_eq, r.forward_eq,
    List.zip_map', List.zip_map']

theorem inRange_point : (f.programWithin c consumers b heavy).inRange (point r switches) = true ↔
    switches.length = switchCount f.size c ∧ (0 ≤ r.initial ∧ ∀ k ∈ b.tokens, r.initial ≤ k) ∧
      Fits b.weight consumers r ∧ ∀ k ∈ switches, 0 ≤ k ∧ k ≤ 1 := by
  rw [IntegerProgram.inRange, Bool.and_eq_true, beq_iff_eq, length_point]
  apply and_congr_right
  intro length
  rw [uppers_zip_point, List.all_eq_true]
  simp only [List.forall_mem_cons, List.forall_mem_append, List.forall_mem_map, List.mem_range,
    forall_zip_replicate length, Bool.and_eq_true, decide_eq_true_eq, Option.all_some]
  refine and_congr (and_congr_right fun _ => ?_) ?_
  · cases b.tokens <;> simp
  · rw [fits_iff, and_assoc]
    refine and_congr ?_ (and_congr ?_ Iff.rfl)
    · exact forall₂_congr fun i _ => and_iff_right (Int.natCast_nonneg _)
    · exact forall₂_congr fun i _ => and_iff_right (Int.natCast_nonneg _)

/-! ### Feasible points -/

/-- The rows at the point of a region: those of chords, of states with their arcs, and of
switches. -/
theorem rows_hold_iff (rooted : f.Rooted root) :
    (∀ row ∈ (f.programWithin c consumers b heavy).rows, row.holds (point r switches) = true) ↔
      f.Consistent r.effect ∧
      (∀ s, f.isReachable s = true → (0 ≤ f.tokens r s ∧ ∀ k ∈ b.tokens, f.tokens r s ≤ k) ∧
        ∀ a ∈ f.graph.outgoing s, ((f.weightOf r a.label).backward : Int) ≤ f.tokens r s) ∧
      ∀ row ∈ (if c.pure then purityRows f.size heavy else []) ++
        structuralRows f.size c heavy, row.holds (point r switches) = true := by
  simp only [programWithin, List.forall_mem_append, List.forall_mem_map, List.forall_mem_flatMap,
    List.forall_mem_cons, and_assoc]
  refine and_congr ?_ (and_congr ?_ Iff.rfl)
  · exact forall₂_congr fun a chord => cycleRow_holds rooted chord
  constructor
  · intro states s found
    obtain ⟨state, arcs⟩ := states (s, f.vector s) (mem_table.2 ⟨found, rfl⟩)
    have within := (stateRow_holds found).1 state
    exact ⟨within.1, fun k given => within.2 k (by simp [Option.mem_def.1 given]),
      fun a edge => (arcRow_holds rooted found edge).1 (arcs a edge)⟩
  · rintro states ⟨s, v⟩ member
    obtain ⟨found, same⟩ := mem_table.1 member
    obtain ⟨nonneg, most, enough⟩ := states s found
    obtain rfl : v = f.vector s := same
    refine ⟨(stateRow_holds found).2 ⟨nonneg, fun k given => ?_⟩,
      fun a edge => (arcRow_holds rooted found edge).2 (enough a edge)⟩
    obtain ⟨b, bounded, rfl⟩ := Option.map_eq_some_iff.1 given
    exact most b bounded

theorem feasible_point (rooted : f.Rooted root) :
    (f.programWithin c consumers b heavy).feasible (point r switches) = true ↔
      f.Valid r ∧ (∀ k ∈ b.tokens, f.bound r ≤ k) ∧ Fits b.weight consumers r ∧
        Switched c heavy r switches := by
  rw [IntegerProgram.feasible, Bool.and_eq_true, inRange_point, List.all_eq_true,
    rows_hold_iff rooted]
  constructor
  · rintro ⟨⟨length, initial, fits, range⟩, consistent, states, switched⟩
    refine ⟨.of_consistent rooted consistent (fun s found => (states s found).1.1)
      fun s found => (states s found).2, fun k given => ?_, fits, length, range, switched⟩
    exact (bound_le_iff rooted).2 fun s found => (states s found).1.2 k given
  · rintro ⟨valid, bounded, fits, switched⟩
    have most (k : Nat) (given : k ∈ b.tokens) := (bound_le_iff rooted).1 (bounded k given)
    refine ⟨⟨switched.length, ⟨valid.initial, fun k given => ?_⟩, fits, switched.range⟩,
      valid.consistent rooted, fun s found => ⟨⟨valid.nonneg s found, fun k given =>
        most k given s found⟩, valid.enough s found⟩, switched.holds⟩
    rw [← rooted.tokens_root r]
    exact most k given root rooted.isReachable_root

end Frame

end NetSynthesis
