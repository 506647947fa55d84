import NetSynthesis.Proofs.ProgramAnswers

/-! What a search may answer with. The regions of each strategy are known beforehand, apart from the
problem asked, and if the strategy is not refused they are in the class of nets and take tokens at
one location only. -/
namespace NetSynthesis

open SeparationProgram

variable {f : Frame} {root : State} {solve : Solver} {c : NetClass} {ls : Locations} {o : Options}
  {limit : Nat} {r : Region f.size} {s t : State} {e : Event} {strategy : Strategy}

/-- What a side condition at some event makes of a candidate. -/
def Frame.Conditioned (f : Frame) (r : Region f.size) : Prop :=
  ∃ q ∈ f.basicCandidates f.basis ++ [Region.trivial f.size], ∃ s e i, f.isReachable s = true ∧
    f.eventIndex? e = some i ∧ f.withSideCondition? q s e i = some r

/-- A region that programs with rounded bounds may answer with. -/
structure Frame.Admitted (f : Frame) (c : NetClass) (ls : Locations) (limit : Nat)
    (r : Region f.size) : Prop where
  valid : f.Valid r
  inClass : f.inClass r c = true
  isLocal : Frame.isLocal r ls = true
  fits : ∀ b, ProgramBounds.rounded c limit = .ok b → Fits b.weight none r

theorem Frame.admitted_iff (representable : c.Representable limit) :
    f.Admitted c ls limit r ↔ f.Eligible c ls limit r := by
  constructor
  · intro admitted
    exact ⟨admitted.valid, admitted.inClass, admitted.isLocal, admitted.fits _ representable⟩
  · rintro ⟨valid, inClass, one, fits⟩
    refine ⟨valid, inClass, one, fun b rounded => ?_⟩
    obtain rfl := Except.ok.inj (representable.symm.trans rounded)
    exact fits

/-- The regions that a strategy may answer with. -/
def Strategy.Yields (f : Frame) (c : NetClass) (ls : Locations) (o : Options) :
    Strategy → Region f.size → Prop
  | .basicPure, r => r ∈ f.basicCandidates f.basis
  | .basicImpure, r => r ∈ f.basicCandidates f.basis ∨ f.Conditioned r
  | .plainPure, r => r ∈ f.plainCandidates c.bound
  | .inequality, r => f.Admitted c ls o.weightLimit r

/-- Some strategy that is not refused may answer with the region. -/
def Frame.Obtainable (f : Frame) (c : NetClass) (ls : Locations) (o : Options)
    (r : Region f.size) : Prop :=
  ∃ strategy : Strategy, strategy.refusal? f.size c ls o = none ∧ strategy.Yields f c ls o r

/-! ### Answers -/

theorem Frame.satisfies?_eq_true (accepted : f.satisfies? r c (some ls) = .ok true) :
    f.inClass r c = true ∧ Frame.isLocal r ls = true := by
  rw [Frame.satisfies?] at accepted
  split at accepted
  · simp at accepted
  rename_i inside
  split at accepted
  · exact ⟨by simpa using inside, Except.ok.inj accepted⟩
  · simp at accepted

/-- Whatever a solver answers with in range, what passes the last look could be asked for. -/
theorem Frame.admitted_of_solution? (inRange : solve.InRange) {p : IntegerProgram}
    (rounded : f.Rounded c limit p) {solves : Region f.size → Bool}
    (found : f.solution? solve c ls solves p = .ok (some r)) : f.Admitted c ls limit r := by
  obtain ⟨valid, accepted, _⟩ := solution?_eq_some found
  obtain ⟨inClass, one⟩ := satisfies?_eq_true accepted
  obtain ⟨x, answer, rfl⟩ := solution?_eq_regionOf found
  refine ⟨valid, inClass, one, fun b bounds => ?_⟩
  obtain ⟨b', consumers, row, bounds', rfl⟩ := rounded
  obtain rfl := Except.ok.inj (bounds.symm.trans bounds')
  have range := inRange _ x answer
  rw [inRange_add] at range
  exact (fits_of_inRange range).2.anywhere

namespace Search

open NetSynthesis.Frame

theorem mem_of_separating_basic {impure : Bool} (found : (Search.basic f.basis
    (f.basicCandidates f.basis) impure).separating solve s t = .ok (some r)) :
    r ∈ f.basicCandidates f.basis := by
  obtain ⟨q, first, rfl⟩ := Option.map_eq_some_iff.1 (Except.ok.inj found)
  apply List.mem_map_of_mem
  exact List.mem_append_left _ (List.mem_append_left _ (List.mem_of_find?_eq_some first))

theorem yields_of_separating (inRange : solve.InRange)
    (found : (Search.of f f.basis c ls o strategy).separating solve s t = .ok (some r)) :
    strategy.Yields f c ls o r := by
  cases strategy with
  | basicPure => exact mem_of_separating_basic found
  | basicImpure => exact .inl (mem_of_separating_basic found)
  | plainPure => exact List.mem_of_find?_eq_some (Except.ok.inj found)
  | inequality =>
    obtain ⟨programs, built, p, tried, solution⟩ := exists_of_separating_programs found
    exact admitted_of_solution? inRange (rounded_of_mem_statePrograms built tried) solution

theorem yields_of_disabling (inRange : solve.InRange)
    (found : (Search.of f f.basis c ls o strategy).disabling solve s e = .ok (some r)) :
    strategy.Yields f c ls o r := by
  cases strategy with
  | basicPure =>
    rcases disabling_basic_eq_some found with ⟨member, _⟩ | ⟨impure, _⟩
    · exact member
    · exact absurd impure Bool.false_ne_true
  | basicImpure =>
    rcases disabling_basic_eq_some found with ⟨member, _⟩ | ⟨_, reached, i, index, q, member, added⟩
    · exact .inl member
    · exact .inr ⟨q, member, s, e, i, reached, index, added⟩
  | plainPure => exact (firstDisabling_eq_some found).1
  | inequality =>
    obtain ⟨_, i, l, p, built, solution⟩ := exists_of_disabling_programs found
    exact admitted_of_solution? inRange (rounded_of_eventProgram built) solution

end Search

/-! ### Classes -/

namespace Frame

theorem isPure_of_mem_pairCombinations {basis : List (Region f.size)}
    (member : r ∈ f.pairCombinations basis) : r.isPure = true := by
  induction basis with
  | nil => simp [pairCombinations] at member
  | cons q rest ih =>
    rw [pairCombinations] at member
    rcases List.mem_append.1 member with pair | later
    · obtain ⟨p, _, member⟩ := List.mem_flatMap.1 pair
      obtain ⟨k, _, member⟩ := List.mem_flatMap.1 member
      simp only at member
      split at member
      · simp at member
      · rcases List.mem_cons.1 member with rfl | second
        · exact Region.isPure_makePure _
        · rw [List.mem_singleton.1 second]
          exact Region.isPure_negate _
    · exact ih later

theorem isPure_of_mem_basicCandidates (member : r ∈ f.basicCandidates f.basis) :
    r.isPure = true := by
  obtain ⟨q, inside, rfl⟩ := List.mem_map.1 member
  change q.isPure = true
  rw [List.mem_append, List.mem_append] at inside
  rcases inside with (basis | negated) | pair
  · obtain ⟨v, _, rfl⟩ := List.mem_map.1 basis
    exact Region.isPure_ofEffect ..
  · obtain ⟨p, _, rfl⟩ := List.mem_map.1 negated
    exact Region.isPure_negate p
  · exact isPure_of_mem_pairCombinations pair

theorem range_signVectors {n : Nat} {v : IntVector} (member : v ∈ signVectors n) :
    ∀ x ∈ v, -1 ≤ x ∧ x ≤ 1 := by
  induction n generalizing v with
  | zero => simp_all [signVectors]
  | succ n ih =>
    obtain ⟨x, sign, member⟩ := List.mem_flatMap.1 member
    obtain ⟨w, inside, rfl⟩ := List.mem_map.1 member
    simp only [List.mem_cons, List.not_mem_nil, or_false] at sign
    exact List.forall_mem_cons.2 ⟨by omega, ih inside⟩

theorem mem_plainCandidates {bound : Option Nat} (member : r ∈ f.plainCandidates bound) :
    r.isPure = true ∧ r.isPlain = true ∧ ∀ k ∈ bound, f.bound r ≤ k := by
  obtain ⟨inside, bounded⟩ := List.mem_filter.1 member
  obtain ⟨v, sorted, rfl⟩ := List.mem_map.1 inside
  obtain ⟨k, _, counted⟩ := List.mem_flatMap.1 sorted
  have sign := range_signVectors (List.mem_filter.1 (List.mem_filter.1 counted).1).1
  refine ⟨Region.isPure_ofEffect .., ?_, fun k given => ?_⟩
  · rw [Region.isPlain, List.all_eq_true]
    intro w member
    obtain ⟨i, _, rfl⟩ := List.mem_map.1 member
    have entry : -1 ≤ v[i]?.getD 0 ∧ v[i]?.getD 0 ≤ 1 := by
      cases at_i : v[i]? with
      | none => decide
      | some x => exact sign x (List.mem_of_getElem? at_i)
    have size : (v[i]?.getD 0).toNat ≤ 1 ∧ (-v[i]?.getD 0).toNat ≤ 1 := by omega
    exact Bool.and_eq_true_iff.2 ⟨decide_eq_true size.1, decide_eq_true size.2⟩
  · rw [Option.mem_def.1 given] at bounded
    simpa using bounded

end Frame

namespace Strategy

open NetSynthesis.Frame

theorem restrictions_eq_nil_iff : restrictions c = [] ↔
    c.plain = false ∧ c.bound = none ∧ c.isStructural = false := by
  simp [restrictions, NetClass.isStructural, and_assoc]

theorem basicRefusal?_eq_none_iff {impure : Bool} : basicRefusal? c ls impure = none ↔
    restrictions c = [] ∧ (impure = true → c.pure = false) ∧ ∀ l ∈ ls, l = none := by
  have nowhere : ls.any (·.isSome) = false ↔ ∀ l ∈ ls, l = none := by simp
  rw [← nowhere, basicRefusal?]
  split
  · rename_i restricted
    simp [show restrictions c ≠ [] by simpa using restricted]
  · rename_i free
    have free : restrictions c = [] := by simpa using free
    cases impure <;> cases c.pure <;> simp [free]

theorem connected_of_not_isStructural (free : c.isStructural = false)
    (pure : c.pure = true → r.isPure = true) : Connected c r := by
  simp only [NetClass.isStructural, Bool.or_eq_false_iff] at free
  obtain ⟨⟨tNet, branching⟩, conflict⟩ := free
  refine ⟨pure, ?_, ?_, ?_⟩ <;> simp [tNet, branching, conflict]

theorem basicRefusal?_eq_none {impure : Bool} (usable : basicRefusal? c ls impure = none)
    (pure : c.pure = true → impure = false → r.isPure = true) :
    f.inClass r c = true ∧ isLocal r ls = true := by
  obtain ⟨unrestricted, conditions, nowhere⟩ := basicRefusal?_eq_none_iff.1 usable
  obtain ⟨plain, bound, free⟩ := restrictions_eq_nil_iff.1 unrestricted
  have tNet : c.tNet = false := by
    simp only [NetClass.isStructural, Bool.or_eq_false_iff] at free
    exact free.1.1
  refine ⟨inClass_iff.2 ⟨connected_of_not_isStructural free fun given => ?_, ?_, ?_⟩,
    isLocal_of_none nowhere⟩
  · refine pure given (Bool.eq_false_iff.2 fun impure => ?_)
    exact Bool.false_ne_true ((conditions impure).symm.trans given)
  · simp [plain, tNet]
  · simp [bound]

theorem eq_inequality (bounded : c.bound ≠ none) (plain : c.plain = false) {events : Nat}
    (usable : strategy.refusal? events c ls o = none) : strategy = .inequality := by
  have restricted : restrictions c ≠ [] := fun free => bounded (restrictions_eq_nil_iff.1 free).2.1
  cases strategy with
  | basicPure => exact absurd (basicRefusal?_eq_none_iff.1 usable).1 restricted
  | basicImpure => exact absurd (basicRefusal?_eq_none_iff.1 usable).1 restricted
  | plainPure => simp [refusal?, plain] at usable
  | inequality => rfl

theorem Yields.inClass (usable : strategy.refusal? f.size c ls o = none)
    (yields : strategy.Yields f c ls o r) : f.inClass r c = true ∧ isLocal r ls = true := by
  cases strategy with
  | basicPure =>
    exact basicRefusal?_eq_none usable fun _ _ => isPure_of_mem_basicCandidates yields
  | basicImpure => exact basicRefusal?_eq_none usable fun _ impure => absurd impure (by simp)
  | plainPure =>
    obtain ⟨pure, plain, bounded⟩ := mem_plainCandidates yields
    rw [refusal?] at usable
    split at usable
    · simp at usable
    split at usable
    · simp at usable
    rename_i free
    split at usable
    · simp at usable
    rename_i unlocated
    exact ⟨inClass_iff.2 ⟨connected_of_not_isStructural (by simpa using free) fun _ => pure,
      fun _ => plain, bounded⟩, isLocal_of_none (by simpa using unlocated)⟩
  | inequality => exact ⟨yields.inClass, yields.isLocal⟩

end Strategy

theorem Frame.Obtainable.inClass (obtainable : f.Obtainable c ls o r) :
    f.inClass r c = true ∧ Frame.isLocal r ls = true := by
  obtain ⟨strategy, usable, yields⟩ := obtainable
  exact yields.inClass usable

/-! ### Chains -/

namespace SearchChain

theorem mem_searches {strategy : Strategy} {search : Search f} :
    (strategy, search) ∈ (of f f.basis c ls o).searches ↔
      strategy.refusal? f.size c ls o = none ∧ search = .of f f.basis c ls o strategy := by
  have all : strategy ∈ [Strategy.basicPure, .basicImpure, .plainPure, .inequality] := by
    cases strategy <;> simp
  simp only [of, List.mem_map, List.mem_filter, Option.isNone_iff_eq_none, Prod.mk.injEq]
  constructor
  · rintro ⟨_, ⟨_, usable⟩, rfl, rfl⟩
    exact ⟨usable, rfl⟩
  · rintro ⟨usable, rfl⟩
    exact ⟨strategy, ⟨all, usable⟩, rfl, rfl⟩

theorem obtainable_of_separating (inRange : solve.InRange)
    (found : (of f f.basis c ls o).separating solve s t = .ok (some r)) :
    f.Obtainable c ls o r := by
  obtain ⟨⟨strategy, search⟩, member, answer⟩ := Frame.firstSome_eq_some found
  obtain ⟨usable, rfl⟩ := mem_searches.1 member
  exact ⟨strategy, usable, Search.yields_of_separating inRange answer⟩

theorem obtainable_of_disabling (inRange : solve.InRange)
    (found : (of f f.basis c ls o).disabling solve s e = .ok (some r)) :
    f.Obtainable c ls o r := by
  obtain ⟨⟨strategy, search⟩, member, answer⟩ := Frame.firstSome_eq_some found
  obtain ⟨usable, rfl⟩ := mem_searches.1 member
  exact ⟨strategy, usable, Search.yields_of_disabling inRange answer⟩

end SearchChain

end NetSynthesis
