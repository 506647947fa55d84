import NetSynthesis.Proofs.FailedGroups

/-! What is asked for and what fails. A class that asks for less, with heavier arcs, leaves all
regions to the searches that they could answer with before: those listed beforehand are still listed
or are points of the programs. No problem fails that did not fail before, and the limit on the
alphabets whose plain regions are listed has no part in it. -/
namespace NetSynthesis

open Relation SeparationProgram

/-- All that one class asks for is asked for by the other, with a bound that is no larger. -/
structure NetClass.Weaker (c c' : NetClass) : Prop where
  pure : c.pure = true → c'.pure = true
  plain : c.plain = true → c'.plain = true
  tNet : c.tNet = true → c'.tNet = true
  outputNonbranching : c.outputNonbranching = true → c'.outputNonbranching = true
  conflictFree : c.conflictFree = true → c'.conflictFree = true
  bound : ∀ k ∈ c.bound, ∃ k' ∈ c'.bound, k' ≤ k

variable {f : Frame} {root : State} {solve solve' : Solver} {c c' : NetClass} {ls : Locations}
  {o o' : Options} {limit limit' : Nat} {languageOnly : Bool} {r : Region f.size}

theorem NetClass.Weaker.refl (c : NetClass) : c.Weaker c :=
  ⟨id, id, id, id, id, fun k given => ⟨k, given, Nat.le_refl k⟩⟩

/-! ### Regions -/

namespace NetClass.Weaker

variable (weaker : c.Weaker c')

include weaker

theorem plain_or_tNet (asked : c.plain = true ∨ c.tNet = true) :
    c'.plain = true ∨ c'.tNet = true :=
  asked.imp weaker.plain weaker.tNet

theorem connected {n : Nat} {r : Region n} (connected : Connected c' r) : Connected c r :=
  ⟨connected.pure ∘ weaker.pure, connected.tNet ∘ weaker.tNet,
    connected.outputNonbranching ∘ weaker.outputNonbranching,
    connected.conflictFree ∘ weaker.conflictFree⟩

theorem inClass (inside : f.inClass r c' = true) : f.inClass r c = true := by
  obtain ⟨connected, plain, bounded⟩ := Frame.inClass_iff.1 inside
  refine Frame.inClass_iff.2 ⟨weaker.connected connected, plain ∘ weaker.plain_or_tNet, ?_⟩
  intro k given
  obtain ⟨k', given', smaller⟩ := weaker.bound k given
  exact (bounded k' given').trans (Int.ofNat_le.2 smaller)

theorem weightBound_le (lighter : limit' ≤ limit) (positive : 0 < limit) :
    weightBound c' limit' ≤ weightBound c limit := by
  simp only [weightBound, Bool.or_eq_true]
  by_cases asked : c.plain = true ∨ c.tNet = true
  · rw [if_pos asked, if_pos (weaker.plain_or_tNet asked)]
  · rw [if_neg asked]
    split <;> omega

theorem eligible (lighter : limit' ≤ limit) (positive : 0 < limit)
    (eligible : f.Eligible c' ls limit' r) : f.Eligible c ls limit r := by
  have heavier := weaker.weightBound_le lighter positive
  refine ⟨eligible.valid, weaker.inClass eligible.inClass, eligible.isLocal,
    fun i inside => ?_, fun i inside => ?_, by simp⟩
  · exact (eligible.fits.backward i inside).trans heavier
  · exact (eligible.fits.forward i inside).trans heavier

theorem basicRefusal?_eq_none {impure : Bool}
    (usable : Strategy.basicRefusal? c' ls impure = none) :
    Strategy.basicRefusal? c ls impure = none := by
  rw [Strategy.basicRefusal?_eq_none_iff, Strategy.restrictions_eq_nil_iff] at usable ⊢
  obtain ⟨⟨plain, bound, structural⟩, conditions, nowhere⟩ := usable
  have dropped {b b' : Bool} (asked : b = true → b' = true) (free : b' = false) : b = false :=
    Bool.eq_false_iff.2 fun given => Bool.false_ne_true (free.symm.trans (asked given))
  simp only [NetClass.isStructural, Bool.or_eq_false_iff] at structural ⊢
  obtain ⟨⟨tNet, branching⟩, conflict⟩ := structural
  refine ⟨⟨dropped weaker.plain plain, Option.eq_none_iff_forall_not_mem.2 fun k given => ?_,
    ⟨dropped weaker.tNet tNet, dropped weaker.outputNonbranching branching⟩,
    dropped weaker.conflictFree conflict⟩,
    fun impure => dropped weaker.pure (conditions impure), nowhere⟩
  obtain ⟨k', given', _⟩ := weaker.bound k given
  simp [bound] at given'

/-- All that a search could answer with some search can answer with. -/
theorem obtainable (rooted : f.Rooted root) (lighter : o'.weightLimit ≤ o.weightLimit)
    (representable : c.Representable o.weightLimit)
    (representable' : c'.Representable o'.weightLimit) (obtainable : f.Obtainable c' ls o' r) :
    f.Obtainable c ls o r := by
  obtain ⟨strategy, usable, yields⟩ := obtainable
  have asked := yields.inClass usable
  cases strategy with
  | basicPure => exact ⟨.basicPure, weaker.basicRefusal?_eq_none usable, yields⟩
  | basicImpure => exact ⟨.basicImpure, weaker.basicRefusal?_eq_none usable, yields⟩
  | plainPure =>
    -- The listing may be refused now, but plain regions are points of all programs.
    exact (Frame.eligible_of_isPlain (rooted.valid_plainCandidates yields)
      ⟨weaker.inClass asked.1, asked.2⟩ (Frame.mem_plainCandidates yields).2.1
      o.weightLimit_pos).obtainable representable
  | inequality =>
    have eligible := (Frame.admitted_iff representable').1 yields
    exact (weaker.eligible lighter o.weightLimit_pos eligible).obtainable representable

end NetClass.Weaker

/-! ### Reports -/

namespace Synthesis

variable {run run' : Synthesis f}

section Runs

variable (rooted : f.Rooted root) (located : f.locations = .ok ls) (exactly : solve.Exact)
  (representable : c.Representable o.weightLimit) (exactly' : solve'.Exact)
  (representable' : c'.Representable o'.weightLimit) (patient : o.quickFail = false)
  (patient' : o'.quickFail = false) (fewer : ∀ r, f.Obtainable c' ls o' r → f.Obtainable c ls o r)
  (answer : Synthesis.run solve f c o languageOnly = .ok run)
  (answer' : Synthesis.run solve' f c' o' languageOnly = .ok run')

include rooted located exactly representable exactly' representable' patient patient' fewer answer
  answer'

theorem lists_mono {s : State} {e : Event} (listed : Lists run.failedEvents s e) :
    Lists run'.failedEvents s e := by
  rw [(reports_of_run rooted exactly representable patient located answer).1,
    (isReport_eventReport _).lists_iff] at listed
  rw [(reports_of_run rooted exactly' representable' patient' located answer').1,
    (isReport_eventReport _).lists_iff]
  obtain ⟨problem, unsolved⟩ := List.mem_filter.1 listed
  obtain ⟨_, known, _⟩ := Frame.mem_eventProblems.1 problem
  refine List.mem_filter.2 ⟨problem, isUnsolved_iff.2 ?_⟩
  exact disabling_eq_none_mono rooted located exactly representable exactly' representable' fewer
    known (isUnsolved_iff.1 unsolved)

theorem groups_mono {g : List State} (listed : g ∈ run.failedStateGroups) :
    ∃ g' ∈ run'.failedStateGroups, g ⊆ g' := by
  obtain ⟨_, classes, none⟩ := reports_of_run rooted exactly representable patient located answer
  obtain ⟨_, classes', _⟩ := reports_of_run rooted exactly' representable' patient' located answer'
  cases languageOnly with
  | true => simp [none rfl] at listed
  | false =>
    obtain ⟨_, located₁, gathered⟩ := gathered_of_run rooted exactly.inRange answer
    obtain rfl := Except.ok.inj (located.symm.trans located₁)
    obtain ⟨_, located₂, gathered'⟩ := gathered_of_run rooted exactly'.inRange answer'
    obtain rfl := Except.ok.inj (located.symm.trans located₂)
    have mono s t (both : run.Inseparable solve s t) : run'.Inseparable solve' s t :=
      both.mono rooted located exactly representable exactly' representable' fewer
        gathered gathered'
    exact (classes rfl).exists_superset (classes' rfl) (EqvGen.mono mono) listed

end Runs

end Synthesis

end NetSynthesis
