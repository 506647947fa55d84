import NetSynthesis.Proofs.ProgramPoints
import NetSynthesis.Proofs.RoundedBounds

/-! What the programs of a search ask for. Some switches make the point of a region feasible if and
only if the region is valid, in the class of nets, within the bound on weights, takes tokens at one
location only and solves the problem. -/
namespace NetSynthesis

open IntVector SeparationProgram

namespace Frame

variable {f : Frame} {root : State} {c : NetClass} {ls : Locations} {limit : Nat}
  {consumers : Option (List Nat)} {r : Region f.size} {x : IntVector} {s t : State} {e : Event}

/-! ### Regions in a class -/

theorem inClass_iff : f.inClass r c = true ↔ Connected c r ∧
    (c.plain = true ∨ c.tNet = true → r.isPlain = true) ∧ ∀ k ∈ c.bound, f.bound r ≤ k := by
  simp only [inClass, Bool.and_eq_true, Bool.or_eq_true, Bool.not_eq_true', decide_eq_true_eq,
    List.all_eq_true, Option.all_eq_true, List.contains_iff_mem, Option.mem_def]
  constructor
  · rintro ⟨⟨⟨⟨⟨pure, plain⟩, bounded⟩, tNet⟩, branching⟩, conflict⟩
    refine ⟨⟨fun given => ?_, fun given => ?_, fun given => ?_, fun given => ?_⟩, fun given => ?_,
      bounded⟩
    · simpa [given] using pure
    · simpa [given] using tNet
    · simpa [given] using branching
    · simpa [given] using conflict
    · rcases given with given | given <;> simpa [given] using plain
  · rintro ⟨connected, plain, bounded⟩
    refine ⟨⟨⟨⟨⟨?_, ?_⟩, bounded⟩, ?_⟩, ?_⟩, ?_⟩
    · cases given : c.pure <;> simp [connected.pure, given]
    · cases some : c.plain || c.tNet with
      | false => exact .inl rfl
      | true => exact .inr (plain (Bool.or_eq_true_iff.1 some))
    · cases given : c.tNet <;> simp [connected.tNet, given]
    · cases given : c.outputNonbranching <;> simp [connected.outputNonbranching, given]
    · cases given : c.conflictFree <;> simp [connected.conflictFree, given]

theorem isLocal_iff : isLocal r ls = true ↔
    ∀ i ∈ r.consumers, ∀ j ∈ r.consumers, ls[i]?.getD none = ls[j]?.getD none := by
  simp [isLocal]

theorem isLocal_of_none (none : ∀ l ∈ ls, l = none) : isLocal r ls = true := by
  have nowhere (i : Nat) : ls[i]?.getD .none = .none := by
    cases entry : ls[i]? with
    | none => rfl
    | some l => exact none l (List.mem_of_getElem? entry)
  exact isLocal_iff.2 fun i _ j _ => by rw [nowhere i, nowhere j]

theorem satisfies?_none (r : Region f.size) (c : NetClass) :
    f.satisfies? r c none = .ok (f.inClass r c) := by
  rw [satisfies?]
  cases f.inClass r c <;> rfl

theorem satisfies?_some (enough : f.size ≤ ls.length) (r : Region f.size) (c : NetClass) :
    f.satisfies? r c (some ls) = .ok (f.satisfies r c ls) := by
  have listed : r.consumers.all (· < ls.length) = true := List.all_eq_true.2 fun i consumes =>
    decide_eq_true ((mem_consumers.1 consumes).1.trans_le enough)
  rw [satisfies?, satisfies]
  cases f.inClass r c <;> simp [listed]

theorem isPlain_of_fits (fits : Fits (weightBound c limit) consumers r)
    (plain : c.plain = true ∨ c.tNet = true) : r.isPlain = true := by
  have one : weightBound c limit = 1 := by
    rcases plain with given | given <;> simp [weightBound, given]
  exact Region.isPlain_iff.2 fun i inside =>
    ⟨one ▸ fits.forward i inside, one ▸ fits.backward i inside⟩

theorem fits_of_light (light : ∀ i < f.size, (r.weightAt i).backward ≤ limit ∧
    (r.weightAt i).forward ≤ limit) (plain : c.plain = true ∨ c.tNet = true → r.isPlain = true) :
    Fits (weightBound c limit) none r := by
  have within : ∀ i < f.size, (r.weightAt i).backward ≤ weightBound c limit ∧
      (r.weightAt i).forward ≤ weightBound c limit := by
    intro i inside
    rw [weightBound]
    split
    · rename_i given
      exact (Region.isPlain_iff.1 (plain (Bool.or_eq_true_iff.1 given)) i inside).symm
    · exact light i inside
  exact ⟨fun i inside => (within i inside).1, fun i inside => (within i inside).2, by simp⟩

/-! ### Points of regions -/

theorem nonneg_of_inRange {p : IntegerProgram} (range : p.inRange x = true) :
    x.length = p.uppers.length ∧ ∀ k ∈ x, 0 ≤ k := by
  rw [IntegerProgram.inRange, Bool.and_eq_true, beq_iff_eq, List.all_eq_true] at range
  refine ⟨range.1, fun k member => ?_⟩
  obtain ⟨i, entry⟩ := List.mem_iff_getElem?.1 member
  have inside : i < p.uppers.length := range.1 ▸ (List.getElem?_eq_some_iff.1 entry).1
  have pair : (p.uppers[i], k) ∈ p.uppers.zip x :=
    List.mem_iff_getElem?.2
      ⟨i, List.getElem?_zip_eq_some.2 ⟨List.getElem?_eq_getElem inside, entry⟩⟩
  have both := range.2 _ pair
  simp only [Bool.and_eq_true, decide_eq_true_eq] at both
  exact both.1

/-- Values in the ranges of the variables are those of a region that fits, and some switches. -/
theorem fits_of_inRange {b : ProgramBounds} {heavy : Nat}
    (range : (f.programWithin c consumers b heavy).inRange x = true) :
    (∃ switches, x = point (regionOf f.size x) switches) ∧
      Fits b.weight consumers (regionOf f.size x) := by
  obtain ⟨length, nonneg⟩ := nonneg_of_inRange range
  have long : 1 + 2 * f.size ≤ x.length := by
    rw [length]
    simp only [programWithin, List.length_append, List.length_cons, List.length_map,
      List.length_range, List.length_replicate]
    omega
  have split := eq_point long nonneg
  rw [split] at range
  exact ⟨⟨_, split⟩, (inRange_point.1 range).2.2.1⟩

/-- The regions of feasible points, whatever the switches. -/
theorem exists_switches_iff (rooted : f.Rooted root) :
    (∃ switches, (f.exactProgram c limit consumers).feasible (point r switches) = true) ↔
      f.Valid r ∧ f.inClass r c = true ∧ Fits (weightBound c limit) consumers r := by
  constructor
  · rintro ⟨switches, feasible⟩
    obtain ⟨valid, bounded, fits, switched⟩ := (feasible_point rooted).1 feasible
    exact ⟨valid, inClass_iff.2 ⟨switched.connected fits.within, isPlain_of_fits fits, bounded⟩,
      fits⟩
  · rintro ⟨valid, inClass, fits⟩
    obtain ⟨connected, _, bounded⟩ := inClass_iff.1 inClass
    exact ⟨switchVector c r,
      (feasible_point rooted).2 ⟨valid, bounded, fits, connected.switched fits.within⟩⟩

theorem feasible_add {p : IntegerProgram} {row : Row} :
    (p.add row).feasible x = true ↔ p.feasible x = true ∧ row.holds x = true := by
  simp only [IntegerProgram.feasible, IntegerProgram.add, IntegerProgram.inRange, Bool.and_eq_true,
    List.all_append, List.all_cons, List.all_nil, Bool.and_true, and_assoc]

theorem inRange_add {p : IntegerProgram} {row : Row} : (p.add row).inRange x = p.inRange x := rfl

theorem Rounded.initial_le {p : IntegerProgram} (rounded : f.Rounded c limit p)
    {b : ProgramBounds} (bounds : ProgramBounds.rounded c limit = .ok b) {switches : IntVector}
    (feasible : p.feasible (point r switches) = true) : ∀ k ∈ b.tokens, r.initial ≤ k := by
  obtain ⟨b', consumers, row, bounds', rfl⟩ := rounded
  obtain rfl := Except.ok.inj (bounds.symm.trans bounds')
  exact (inRange_point.1 (Bool.and_eq_true_iff.1 (feasible_add.1 feasible).1).1).2.1.2

theorem exists_switches_add_iff (rooted : f.Rooted root) {row : Row} {good : Prop}
    (means : ∀ switches, row.holds (point r switches) = true ↔ good) :
    (∃ switches, ((f.exactProgram c limit consumers).add row).feasible (point r switches) = true) ↔
      (f.Valid r ∧ f.inClass r c = true ∧ Fits (weightBound c limit) consumers r) ∧ good := by
  simp only [feasible_add, means, exists_and_right, exists_switches_iff rooted]

/-! ### Consumers at one location -/

theorem fits_some_iff {bound : Nat} {l : List Nat} :
    Fits bound (some l) r ↔ Fits bound none r ∧ ∀ i ∈ r.consumers, i ∈ l :=
  ⟨fun fits => ⟨fits.anywhere, fits.consumers l rfl⟩,
    fun ⟨fits, among⟩ => ⟨fits.backward, fits.forward, by rintro _ ⟨⟩; exact among⟩⟩

def positionsAt (ls : Locations) (l : Option Location) : List Nat :=
  (List.range ls.length).filter fun k => ls[k]? == some l

theorem mem_positionsAt {l : Option Location} {i : Nat} :
    i ∈ positionsAt ls l ↔ ls[i]? = some l := by
  simp only [positionsAt, List.mem_filter, List.mem_range, beq_iff_eq, and_iff_right_iff_imp]
  intro entry
  exact (List.getElem?_eq_some_iff.1 entry).1

theorem isLocal_of_positions {l : Option Location}
    (together : ∀ i ∈ r.consumers, i ∈ positionsAt ls l) : isLocal r ls = true := by
  apply isLocal_iff.2
  intro i hi j hj
  rw [mem_positionsAt.1 (together i hi), mem_positionsAt.1 (together j hj)]

theorem isLocal_iff_positions (length : ls.length = f.size) {i : Nat} (consumes : i ∈ r.consumers)
    {l : Option Location} (at_i : ls[i]? = some l) :
    isLocal r ls = true ↔ ∀ j ∈ r.consumers, j ∈ positionsAt ls l := by
  refine ⟨fun one j other => ?_, isLocal_of_positions⟩
  have inside : j < ls.length := length ▸ (mem_consumers.1 other).1
  have same := isLocal_iff.1 one i consumes j other
  rw [at_i, List.getElem?_eq_getElem inside, Option.getD_some, Option.getD_some] at same
  rw [mem_positionsAt, List.getElem?_eq_getElem inside, same]

/-- A region fits one of the sets of consumers that are tried if they are at one location. -/
theorem exists_consumerSet_iff (length : ls.length = f.size) {bound : Nat} :
    (∃ consumers ∈ consumerSets ls, Fits bound consumers r) ↔
      Fits bound none r ∧ isLocal r ls = true := by
  rw [consumerSets]
  split
  · rename_i none
    have local_r : isLocal r ls = true :=
      isLocal_of_none fun l member => by simpa using List.all_eq_true.1 none l member
    simp [local_r]
  rename_i some
  constructor
  · rintro ⟨_, tried, fits⟩
    obtain ⟨l, _, rfl⟩ := List.mem_map.1 tried
    obtain ⟨fits, among⟩ := fits_some_iff.1 fits
    exact ⟨fits, isLocal_of_positions among⟩
  · rintro ⟨fits, one⟩
    obtain ⟨l, listed, together⟩ : ∃ l ∈ ls, ∀ j ∈ r.consumers, j ∈ positionsAt ls l := by
      cases consumers : r.consumers with
      | nil =>
        cases ls with
        | nil => simp at some
        | cons l ls => exact ⟨l, by simp, by simp⟩
      | cons i rest =>
        have consumes : i ∈ r.consumers := by simp [consumers]
        have inside : i < ls.length := length ▸ (mem_consumers.1 consumes).1
        rw [← consumers]
        exact ⟨ls[i], List.getElem_mem inside,
          (isLocal_iff_positions length consumes (List.getElem?_eq_getElem inside)).1 one⟩
    exact ⟨_, List.mem_map.2 ⟨l, List.mem_eraseDups.2 listed, rfl⟩,
      fits_some_iff.2 ⟨fits, together⟩⟩

/-- The same for the consumers at the location of one of them, where all events have a location or
none has. -/
theorem fits_location_iff (length : ls.length = f.size)
    (uniform : (∀ l ∈ ls, l = none) ∨ ∀ l ∈ ls, l ≠ none) {bound i : Nat}
    (consumes : i ∈ r.consumers) {l : Option Location} (at_i : ls[i]? = some l) :
    Fits bound (l.map fun l => positionsAt ls (some l)) r ↔
      Fits bound none r ∧ isLocal r ls = true := by
  have listed := List.mem_of_getElem? at_i
  rcases uniform with none | some
  · obtain rfl := none l listed
    simp [isLocal_of_none none]
  · obtain ⟨place, rfl⟩ := Option.ne_none_iff_exists'.1 (some l listed)
    rw [Option.map_some, fits_some_iff, isLocal_iff_positions length consumes at_i]

/-! ### Programs of problems -/

/-- A region that integer programs with a weight limit may answer with. -/
structure Eligible (f : Frame) (c : NetClass) (ls : Locations) (limit : Nat) (r : Region f.size) :
    Prop where
  valid : f.Valid r
  inClass : f.inClass r c = true
  isLocal : isLocal r ls = true
  fits : Fits (weightBound c limit) none r

/-- A plain region is within every limit on weights. -/
theorem eligible_of_isPlain (valid : f.Valid r)
    (asked : f.inClass r c = true ∧ isLocal r ls = true) (plain : r.isPlain = true)
    (positive : 0 < limit) : f.Eligible c ls limit r := by
  refine ⟨valid, asked.1, asked.2, fits_of_light (fun i inside => ?_) fun _ => plain⟩
  have one := Region.isPlain_iff.1 plain i inside
  omega

theorem disablingRow_holds (found : f.isReachable s = true) {i : Nat}
    (index : f.eventIndex? e = some i) (inside : i < f.size) (switches : IntVector) :
    ({ form := (markingForm (f.vector s)).add (entry (backward i) (-1)),
       upper := some (-1) } : Row).holds (point r switches) = true ↔
      f.disables r s e = true := by
  have weight : f.weightOf r e = r.weightAt i := by simp [weightOf, index]
  rw [holds_upper, add_dot, dot_markingForm (length_vector found), dot_entry,
    value_backward inside, disables_iff, weight, tokens]
  simp only [found, true_and]
  omega

theorem exists_eventProgram_iff (rooted : f.Rooted root) (length : ls.length = f.size)
    (uniform : (∀ l ∈ ls, l = none) ∨ ∀ l ∈ ls, l ≠ none) (found : f.isReachable s = true)
    {i : Nat} (index : f.eventIndex? e = some i) {l : Option Location} (at_i : ls[i]? = some l) :
    (∃ switches, (f.exactEventProgram c ls limit s i l).feasible (point r switches) = true) ↔
      f.Eligible c ls limit r ∧ f.disables r s e = true := by
  have inside : i < f.size := rooted.eventIndex?_lt index
  refine (exists_switches_add_iff rooted (disablingRow_holds found index inside)).trans ?_
  -- An event that the region disables is one of its consumers.
  have consumes (valid : f.Valid r) (disables : f.disables r s e = true) : i ∈ r.consumers := by
    have short := (disables_iff.1 disables).2
    have nonneg := valid.nonneg s found
    simp only [weightOf, index, Option.map_some, Option.getD_some] at short
    exact mem_consumers.2 ⟨inside, by omega⟩
  constructor
  · rintro ⟨⟨valid, inClass, fits⟩, disables⟩
    obtain ⟨fits, one⟩ := (fits_location_iff length uniform (consumes valid disables) at_i).1 fits
    exact ⟨⟨valid, inClass, one, fits⟩, disables⟩
  · rintro ⟨⟨valid, inClass, one, fits⟩, disables⟩
    exact ⟨⟨valid, inClass,
      (fits_location_iff length uniform (consumes valid disables) at_i).2 ⟨fits, one⟩⟩, disables⟩

theorem dot_difference (r : Region f.size) (s t : State) :
    r.effect.dot ((f.vector s).sub (f.vector t)) = f.tokens r s - f.tokens r t := by
  rw [dot_sub, tokens, tokens, Region.tokensAfter, Region.tokensAfter]; omega

theorem exists_statePrograms_iff (rooted : f.Rooted root) (length : ls.length = f.size)
    (hs : f.isReachable s = true) (ht : f.isReachable t = true) :
    (∃ p ∈ f.exactStatePrograms c ls limit ((f.vector s).sub (f.vector t)), ∃ switches,
      p.feasible (point r switches) = true) ↔
      f.Eligible c ls limit r ∧ f.separates r s t = true := by
  have long : ((f.vector s).sub (f.vector t)).length = f.size := by
    simp [length_vector hs, length_vector ht]
  have more (switches : IntVector) :
      ({ form := effectForm ((f.vector s).sub (f.vector t)),
         lower := some 1 } : Row).holds (point r switches) = true ↔
        f.tokens r t < f.tokens r s := by
    rw [holds_lower, dot_effectForm long, dot_difference]; omega
  have less (switches : IntVector) :
      ({ form := effectForm ((f.vector s).sub (f.vector t)),
         upper := some (-1) } : Row).holds (point r switches) = true ↔
        f.tokens r s < f.tokens r t := by
    rw [holds_upper, dot_effectForm long, dot_difference]; omega
  constructor
  · rintro ⟨p, tried, feasible⟩
    obtain ⟨consumers, among, either⟩ := List.mem_flatMap.1 tried
    have eligible (region : f.Valid r ∧ f.inClass r c = true ∧
        Fits (weightBound c limit) consumers r) : f.Eligible c ls limit r := by
      obtain ⟨valid, inClass, fits⟩ := region
      obtain ⟨fits, one⟩ := (exists_consumerSet_iff length).1 ⟨consumers, among, fits⟩
      exact ⟨valid, inClass, one, fits⟩
    simp only [differenceRows, List.map_cons, List.map_nil, List.mem_cons, List.not_mem_nil,
      or_false] at either
    rcases either with rfl | rfl
    · obtain ⟨region, differ⟩ := (exists_switches_add_iff rooted more).1 feasible
      exact ⟨eligible region, separates_iff.2 ⟨hs, ht, differ.ne'⟩⟩
    · obtain ⟨region, differ⟩ := (exists_switches_add_iff rooted less).1 feasible
      exact ⟨eligible region, separates_iff.2 ⟨hs, ht, differ.ne⟩⟩
  · rintro ⟨⟨valid, inClass, one, fits⟩, separates⟩
    obtain ⟨consumers, tried, fits⟩ := (exists_consumerSet_iff length).2 ⟨fits, one⟩
    rcases Int.lt_or_gt_of_ne (separates_iff.1 separates).2.2 with differ | differ
    · exact ⟨_, List.mem_flatMap.2 ⟨consumers, tried, by simp [differenceRows]⟩,
        (exists_switches_add_iff rooted less).2 ⟨⟨valid, inClass, fits⟩, differ⟩⟩
    · exact ⟨_, List.mem_flatMap.2 ⟨consumers, tried, by simp [differenceRows]⟩,
        (exists_switches_add_iff rooted more).2 ⟨⟨valid, inClass, fits⟩, differ⟩⟩

end Frame

end NetSynthesis
