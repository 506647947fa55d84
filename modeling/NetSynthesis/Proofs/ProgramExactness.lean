import NetSynthesis.Proofs.NetCompleteness

/-! The programs mean what they should. The whole numbers that their feasible points start with are
the tokens and weights of the regions that pass the last look and solve the problem, no more and no
less. An exact solver is therefore never contradicted by the last look, and where the search by
programs answers with none there is no region to be found. -/
namespace NetSynthesis

open IntVector SeparationProgram

namespace Region

variable {n : Nat} {r : Region n}

/-- No weight is greater than a bound. -/
def WithinBound (r : Region n) (bound : Nat) : Prop :=
  ∀ w ∈ r.weights, w.backward ≤ bound ∧ w.forward ≤ bound

theorem withinBound_iff {bound : Nat} : r.WithinBound bound ↔ Fits bound none r := by
  refine (forall_weights (p := fun w => w.backward ≤ bound ∧ w.forward ≤ bound)).trans ?_
  exact ⟨fun within => ⟨fun i inside => (within i inside).1, fun i inside => (within i inside).2,
    by simp⟩, fun fits => fits.within⟩

theorem withinBound_iff_entries {bound : Nat} :
    r.WithinBound bound ↔ ∀ k ∈ r.backward ++ r.forward, 0 ≤ k ∧ k ≤ (bound : Int) := by
  simp only [WithinBound, backward, forward, List.forall_mem_append, List.forall_mem_map,
    Int.natCast_nonneg, true_and, Int.ofNat_le]
  exact forall₂_and

end Region

namespace Frame

variable {f : Frame} {root : State} {solve : Solver} {c : NetClass} {ls : Locations} {limit : Nat}
  {programs : List IntegerProgram} {solves : Region f.size → Bool} {r : Region f.size}
  {s t : State} {e : Event}

/-- The numbers that feasible points of some programs start with, whatever the switches, are the
tokens and weights of the regions with a property and with weights up to a bound. -/
def Describes (f : Frame) (programs : List IntegerProgram) (bound : Nat)
    (good : Region f.size → Prop) : Prop :=
  ∀ (m : Int) (b w : IntVector), b.length = f.size → w.length = f.size →
    ((∃ p ∈ programs, ∃ switches, p.feasible (m :: (b ++ (w ++ switches))) = true) ↔
      (∀ k ∈ b ++ w, 0 ≤ k ∧ k ≤ (bound : Int)) ∧
        ∃ r : Region f.size, Region.of f.events b w m = .ok r ∧ good r)

/-- A region that the last look lets pass. -/
def Passes (f : Frame) (c : NetClass) (ls : Locations) (r : Region f.size) : Prop :=
  f.isValid r = true ∧ f.satisfies? r c (some ls) = .ok true

/-- A search by programs is exact: they describe the regions that pass and solve the problem, what
an exact solver answers with is not discarded, and with such a solver none means that there is no
such region. -/
structure ExactSearch (f : Frame) (c : NetClass) (ls : Locations) (limit : Nat)
    (solves : Region f.size → Bool) (programs : List IntegerProgram)
    (search : Solver → Except Error (Option (Region f.size))) : Prop where
  search_eq : ∀ solve, search solve = firstSome (f.solution? solve c ls solves) programs
  describes : f.Describes programs (weightBound c limit) fun r =>
    f.Passes c ls r ∧ solves r = true
  kept : ∀ solve, solve.Exact → ∀ p ∈ programs, ∀ x, solve p = some x →
    f.solution? solve c ls solves p = .ok (some (regionOf f.size x))
  none_iff : ∀ solve, solve.Exact → (search solve = .ok none ↔
    ¬ ∃ r, r.WithinBound (weightBound c limit) ∧ f.Passes c ls r ∧ solves r = true)

theorem passes_iff (length : ls.length = f.size) : f.Passes c ls r ↔
    f.Valid r ∧ f.inClass r c = true ∧ isLocal r ls = true := by
  have look := accepts_eq (c := c) (r := r) length
  rw [accepts] at look
  rw [Passes, isValid_iff]
  refine and_congr_right fun valid => ?_
  rw [isValid_iff.2 valid, if_pos rfl, Bool.true_and] at look
  rw [look, Except.ok.injEq, Bool.and_eq_true]

theorem eligible_iff (length : ls.length = f.size) : f.Eligible c ls limit r ↔
    r.WithinBound (weightBound c limit) ∧ f.Passes c ls r := by
  rw [Region.withinBound_iff, passes_iff length]
  exact ⟨fun ⟨valid, inClass, one, fits⟩ => ⟨fits, valid, inClass, one⟩,
    fun ⟨fits, valid, inClass, one⟩ => ⟨valid, inClass, one, fits⟩⟩

theorem describes_of_iff (length : ls.length = f.size)
    (asks : ∀ p ∈ programs, f.Asks c ls solves p)
    (means : ∀ r, (∃ p ∈ programs, ∃ switches, p.feasible (point r switches) = true) ↔
      f.Eligible c ls limit r ∧ solves r = true) :
    f.Describes programs (weightBound c limit) fun r => f.Passes c ls r ∧ solves r = true := by
  intro m b w lb lw
  have same {r : Region f.size} (made : Region.of f.events b w m = .ok r) (switches : IntVector) :
      m :: (b ++ (w ++ switches)) = point r switches := by
    obtain ⟨rfl, rfl, rfl⟩ := Region.of_eq_ok_iff.1 made
    rfl
  constructor
  · rintro ⟨p, tried, switches, feasible⟩
    obtain ⟨own, split⟩ := (asks p tried).shape _ feasible
    generalize regionOf f.size (m :: (b ++ (w ++ switches))) = r at split
    have made : Region.of f.events b w m = .ok r := by
      obtain ⟨initial, rest⟩ := List.cons.inj split
      obtain ⟨backward, rest⟩ := List.append_inj rest (by simp [lb])
      obtain ⟨forward, _⟩ := List.append_inj rest (by simp [lw])
      exact Region.of_eq_ok_iff.2 ⟨initial.symm, backward.symm, forward.symm⟩
    rw [same made] at feasible
    obtain ⟨eligible, good⟩ := (means r).1 ⟨p, tried, switches, feasible⟩
    obtain ⟨within, passes⟩ := (eligible_iff length).1 eligible
    obtain ⟨rfl, rfl, rfl⟩ := Region.of_eq_ok_iff.1 made
    exact ⟨Region.withinBound_iff_entries.1 within, r, made, passes, good⟩
  · rintro ⟨entries, r, made, passes, good⟩
    have within : r.WithinBound (weightBound c limit) := by
      obtain ⟨rfl, rfl, rfl⟩ := Region.of_eq_ok_iff.1 made
      exact Region.withinBound_iff_entries.2 entries
    obtain ⟨p, tried, switches, feasible⟩ :=
      (means r).2 ⟨(eligible_iff length).2 ⟨within, passes⟩, good⟩
    exact ⟨p, tried, switches, same made switches ▸ feasible⟩

/-- Programs that ask for the right regions make a search exact. -/
theorem exactSearch_of_iff (length : ls.length = f.size)
    (asks : ∀ p ∈ programs, f.Asks c ls solves p)
    (means : ∀ r, (∃ p ∈ programs, ∃ switches, p.feasible (point r switches) = true) ↔
      f.Eligible c ls limit r ∧ solves r = true)
    {search : Solver → Except Error (Option (Region f.size))}
    (search_eq : ∀ solve, search solve = firstSome (f.solution? solve c ls solves) programs) :
    f.ExactSearch c ls limit solves programs search := by
  refine ⟨search_eq, describes_of_iff length asks means, fun solve exactly p tried x answer => ?_,
    fun solve exactly => ?_⟩
  · rw [(asks p tried).solution?_eq exactly length, answer, Option.map_some]
  · simp only [search_eq, firstSome_solution?_eq_none_iff asks exactly length, means,
      eligible_iff length, and_assoc]

/-- The searches by programs are exact, for any system, class of nets and limit on weights that
double precision leaves as they are, where all events have a location or none has. The program for
an event is the one that is written, and an event is disabled by a region of least cost. -/
theorem programs_exact (wf : f.graph.WellFormed) (representable : c.Representable limit)
    (length : ls.length = f.size) (uniform : (∀ l ∈ ls, l = none) ∨ ∀ l ∈ ls, l ≠ none) :
    (∀ s e, f.isReachable s = true → e ∈ f.events → ∃ i l base, f.eventIndex? e = some i ∧
      ls[i]? = some l ∧ f.program c limit (sharers ls l) = .ok base ∧
      f.eventProgram c ls limit s i l = .ok (base.add (f.disablingRow s i)) ∧
      f.ExactSearch c ls limit (f.disables · s e) [base.add (f.disablingRow s i)]
        (fun solve => (Search.programs c ls limit : Search f).disabling solve s e) ∧
      ∀ solve, solve.Exact → ∀ r,
        (Search.programs c ls limit : Search f).disabling solve s e = .ok (some r) →
        ∀ q : Region f.size, q.WithinBound (weightBound c limit) → f.Passes c ls q →
          f.disables q s e = true → r.cost ≤ q.cost) ∧
    ∀ s t, ∃ programs, f.triedPrograms c ls limit s t = .ok programs ∧
      f.ExactSearch c ls limit (f.separates · s t) programs
        fun solve => (Search.programs c ls limit : Search f).separating solve s t := by
  constructor
  · intro s e found known
    obtain ⟨root, rooted⟩ := exists_rooted wf found
    obtain ⟨i, index, inside⟩ := rooted.eventIndex?_of_mem known
    obtain ⟨l, at_i⟩ : ∃ l, ls[i]? = some l := ⟨_, List.getElem?_eq_getElem (length ▸ inside)⟩
    have asks : f.Asks c ls (f.disables · s e) (f.exactEventProgram c ls limit s i l) :=
      eventProgram_asks rooted length uniform found index at_i
    have means (r : Region f.size) :
        (∃ switches, (f.exactEventProgram c ls limit s i l).feasible (point r switches) = true) ↔
          f.Eligible c ls limit r ∧ f.disables r s e = true :=
      exists_eventProgram_iff rooted length uniform found index at_i
    have searched (solve : Solver) :
        (Search.programs c ls limit : Search f).disabling solve s e =
          f.solution? solve c ls (f.disables · s e) (f.exactEventProgram c ls limit s i l) := by
      rw [disabling_programs_eq found index at_i, representable.eventProgram, Except.bind]
    have search : f.ExactSearch c ls limit (f.disables · s e) [f.exactEventProgram c ls limit s i l]
        (fun solve => (Search.programs c ls limit : Search f).disabling solve s e) :=
      exactSearch_of_iff length (by simpa using asks) (by simpa using means) fun solve => by
        rw [searched, firstSome_singleton]
    refine ⟨i, l, f.exactProgram c limit (sharers ls l), index, at_i, representable.program,
      representable.eventProgram ls s i l, search,
      fun solve exactly r answer q within passes disables => ?_⟩
    rw [searched] at answer
    obtain ⟨switches, feasible⟩ :=
      (means q).2 ⟨(eligible_iff length).2 ⟨within, passes⟩, disables⟩
    exact asks.cost_le exactly length rfl answer feasible
  · intro s t
    refine ⟨_, triedPrograms_eq representable, ?_⟩
    have search_eq (solve : Solver) : (Search.programs c ls limit : Search f).separating solve s t =
        firstSome (f.solution? solve c ls (f.separates · s t))
          (f.exactTriedPrograms c ls limit s t) := by
      rw [separating_programs_eq, triedPrograms_eq representable, Except.bind]
    by_cases found : f.isReachable s = true
    · obtain ⟨root, rooted⟩ := exists_rooted wf found
      exact exactSearch_of_iff length (fun p tried => exactTriedPrograms_asks rooted length tried)
        (fun r => exists_exactTriedPrograms_iff rooted length) search_eq
    · have untried : f.exactTriedPrograms c ls limit s t = [] := by
        simp [exactTriedPrograms, found]
      refine exactSearch_of_iff length (by simp [untried]) (fun r => ?_) search_eq
      simp [untried, separates, found]

/-- A place that takes a token for one of two events and gives it back for the other is among the
points of a program. -/
theorem programs_exact_toggle : ∃ p, Synthesis.toggleFrame.eventProgram Synthesis.strict
    [some "left", some "right"] 32 "off" 0 (some "left") = .ok p ∧
      ∃ switches, p.feasible (0 :: ([1, 0] ++ ([0, 1] ++ switches))) = true := by
  have wf : Synthesis.toggleFrame.graph.WellFormed := Synthesis.toggle_wellFormed
  have length : [some "left", some "right"].length = Synthesis.toggleFrame.size := rfl
  obtain ⟨i, l, base, index, at_i, _, made, search, _⟩ :=
    (programs_exact wf Synthesis.strict_representable length (.inr (by decide))).1 "off" "down"
      (by decide) (by decide)
  obtain rfl : 0 = i := Option.some.inj index
  obtain rfl : some "left" = l := Option.some.inj at_i
  have passes : Synthesis.toggleFrame.Passes Synthesis.strict [some "left", some "right"]
      ⟨[⟨1, 0⟩, ⟨0, 1⟩], 0, rfl⟩ := ⟨by decide, rfl⟩
  refine ⟨_, made, ?_⟩
  simpa using (search.describes 0 [1, 0] [0, 1] rfl rfl).2
    ⟨by decide, ⟨[⟨1, 0⟩, ⟨0, 1⟩], 0, rfl⟩, rfl, passes, by decide⟩

/-- At most one token more than double precision counts exactly. -/
def odd : NetClass := { bound := some (2 ^ 53 + 1) }

/-- So many tokens are in one of two states, but in no program that is tried for these. -/
theorem not_programs_exact_odd : ∃ r : Region Synthesis.toggleFrame.size,
    r.WithinBound (weightBound odd 32) ∧ Synthesis.toggleFrame.Passes odd [none, none] r ∧
      Synthesis.toggleFrame.separates r "off" "on" = true ∧ ∃ programs,
        Synthesis.toggleFrame.triedPrograms odd [none, none] 32 "off" "on" = .ok programs ∧
          ∀ p ∈ programs, ∀ switches, p.feasible (point r switches) = false := by
  have bounds : ProgramBounds.rounded odd 32 = .ok ⟨some (2 ^ 53), 32⟩ := by decide +kernel
  obtain ⟨programs, built⟩ : ∃ programs,
      Synthesis.toggleFrame.triedPrograms odd [none, none] 32 "off" "on" = .ok programs :=
    triedPrograms_total ⟨_, bounds⟩ "off" "on"
  have within : ∀ w ∈ [(⟨0, 1⟩ : Weight), ⟨1, 0⟩], w.backward ≤ weightBound odd 32 ∧
      w.forward ≤ weightBound odd 32 := by decide
  refine ⟨⟨[⟨0, 1⟩, ⟨1, 0⟩], 2 ^ 53 + 1, rfl⟩, within, ⟨by decide +kernel, rfl⟩,
    by decide +kernel, programs, built, fun p tried switches => ?_⟩
  rw [triedPrograms, if_neg (by decide)] at built
  rw [← Bool.not_eq_true]
  intro feasible
  have few := (rounded_of_mem_statePrograms built tried).initial_le bounds feasible (2 ^ 53) rfl
  exact absurd few (by decide)

end Frame

end NetSynthesis
