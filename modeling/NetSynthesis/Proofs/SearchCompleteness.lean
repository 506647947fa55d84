import NetSynthesis.Proofs.EventLocations
import NetSynthesis.Proofs.RegionBasis
import NetSynthesis.Proofs.SearchAnswers

/-! Completeness of the searches. A chain with an exact solver answers with none if and only if no
region that one of its strategies may answer with, for whatever problem, solves the problem. The
answer is the same, none or some region, for all exact solvers. -/
namespace NetSynthesis

open IntVector SeparationProgram

theorem Solver.Exact.inRange {solve : Solver} (exactly : solve.Exact) : solve.InRange :=
  fun p x answer => (Bool.and_eq_true_iff.1 (exactly.optimal p x answer).1).1

variable {f : Frame} {root : State} {solve : Solver} {c : NetClass} {ls : Locations} {o : Options}
  {r q : Region f.size} {s t : State} {e : Event} {strategy : Strategy}

namespace Frame

/-! ### Basis regions -/

theorem separates_iff_dot (hs : f.isReachable s = true) (ht : f.isReachable t = true) :
    f.separates r s t = true ↔ r.effect.dot ((f.vector s).sub (f.vector t)) ≠ 0 := by
  rw [separates_iff, dot_difference]
  simp only [hs, ht, true_and]
  omega

/-- Where no basis region tells two states apart, no valid region does. -/
theorem Valid.exists_basis_separates (rooted : f.Rooted root) (valid : f.Valid r)
    (separates : f.separates r s t = true) : ∃ b ∈ f.basis, f.separates b s t = true := by
  obtain ⟨hs, ht, _⟩ := separates_iff.1 separates
  obtain ⟨b, basis, counts⟩ := (valid.consistent rooted).exists_basis_dot
    r.length_effect ((separates_iff_dot hs ht).1 separates)
  exact ⟨b, basis, (separates_iff_dot hs ht).2 counts⟩

/-! ### Side conditions -/

theorem withSideCondition?_eq_none_iff {i : Nat} : f.withSideCondition? r s e i = none ↔
    max (f.available r s e) (-(r.weightAt i).effect) ≤ f.tokens r s := by
  unfold withSideCondition?
  simp only
  split
  · rename_i enough
    exact iff_of_true rfl enough
  · rename_i few
    exact iff_of_false (by simp) few

/-- A side condition can be added wherever there are fewer tokens than in the states that enable the
event. -/
theorem withSideCondition?_ne_none {i : Nat}
    (fewer : ∀ t ∈ f.enabling e, f.tokens q s < f.tokens q t) :
    f.withSideCondition? q s e i ≠ none := by
  rw [Ne, withSideCondition?_eq_none_iff]
  have available : f.tokens q s < f.available q s e := by
    rw [available]
    cases lowest : ((f.enabling e).map (f.tokens q)).min? with
    | none => rw [Option.getD_none]; omega
    | some k =>
      obtain ⟨t, member, rfl⟩ := List.mem_map.1 (List.min?_mem lowest)
      exact fewer t member
  omega

/-- Regions with one effect have the same differences of tokens. -/
theorem tokens_sub_tokens (same : q.effect = r.effect) (s t : State) :
    f.tokens q s - f.tokens q t = f.tokens r s - f.tokens r t := by
  simp only [tokens, Region.tokensAfter, same]
  omega

/-- Where a valid region disables an event, all regions with the same effect have fewer tokens than
in the states that enable it. -/
theorem Valid.fewer_of_disables (wf : f.graph.WellFormed) (valid : f.Valid r)
    (same : q.effect = r.effect) (disables : f.disables r s e = true) :
    ∀ t ∈ f.enabling e, f.tokens q s < f.tokens q t := by
  intro t enabled
  obtain ⟨reached, a, edge, rfl⟩ := (mem_enabling wf).1 enabled
  have short := (disables_iff.1 disables).2
  have enough := valid.enough t reached a edge
  have difference := tokens_sub_tokens (f := f) same s t
  omega

theorem Conditioned.valid (rooted : f.Rooted root) (conditioned : f.Conditioned r) : f.Valid r := by
  obtain ⟨q, member, s, e, i, reached, index, added⟩ := conditioned
  exact (rooted.valid_withSideCondition (rooted.valid_conditioning member) reached index
    (rooted.eventIndex?_lt index) added).1

theorem Conditioned.exists_effect (rooted : f.Rooted root) (conditioned : f.Conditioned r) :
    ∃ q ∈ f.basicCandidates f.basis ++ [Region.trivial f.size], q.effect = r.effect := by
  obtain ⟨q, member, s, e, i, reached, _, added⟩ := conditioned
  obtain ⟨w, rfl, same, _⟩ :=
    rooted.exists_weight (rooted.valid_conditioning member) reached added
  exact ⟨q, member, (q.effect_setWeight i same).symm⟩

end Frame

/-! ### Searches -/

namespace Search

open NetSynthesis.Frame

theorem firstDisabling_eq (rooted : f.Rooted root) (known : e ∈ f.events)
    (regions : List (Region f.size)) (s : State) :
    firstDisabling regions s e = .ok (regions.find? (f.disables · s e)) := by
  obtain ⟨i, index, _⟩ := rooted.eventIndex?_of_mem known
  simp [firstDisabling, index]

/-- The basis search answers with none if no candidate and no side condition will do. -/
theorem disabling_basic_eq_none (rooted : f.Rooted root) {basis candidates : List (Region f.size)}
    {impure : Bool} {i : Nat} (index : f.eventIndex? e = some i)
    (unsolved : (Search.basic basis candidates impure).disabling solve s e = .ok none) :
    (∀ q ∈ candidates, f.disables q s e = false) ∧ (impure = true → f.isReachable s = true →
      ∀ q ∈ candidates ++ [Region.trivial f.size], f.withSideCondition? q s e i = none) := by
  have known : e ∈ f.events := List.mem_of_getElem? (rooted.eventIndex?_eq_some.1 index)
  rw [disabling, firstDisabling_eq rooted known] at unsolved
  simp only [bind, Except.bind, index] at unsolved
  cases first : candidates.find? (f.disables · s e) with
  | some q => simp [first, pure, Except.pure] at unsolved
  | none =>
    refine ⟨by simpa using first, fun impure reached => ?_⟩
    rw [first] at unsolved
    simp only [impure, reached, Bool.and_self, if_true] at unsolved
    exact List.findSome?_eq_none_iff.1 (pure_eq_ok.1 unsolved)

theorem disabling_basic_total (rooted : f.Rooted root) (known : e ∈ f.events)
    (basis candidates : List (Region f.size)) (impure : Bool) :
    ∃ answer, (Search.basic basis candidates impure).disabling solve s e = .ok answer := by
  obtain ⟨i, index, _⟩ := rooted.eventIndex?_of_mem known
  rw [disabling, firstDisabling_eq rooted known]
  simp only [index, bind, Except.bind]
  split
  · exact ⟨_, rfl⟩
  · split <;> exact ⟨_, rfl⟩
  · exact ⟨_, rfl⟩

theorem separating_basic_eq_none_iff {basis candidates : List (Region f.size)} {impure : Bool} :
    (Search.basic basis candidates impure).separating solve s t = .ok none ↔
      ∀ b ∈ basis, f.separates b s t = false := by
  simp [separating]

variable (rooted : f.Rooted root) (length : ls.length = f.size)

include rooted length in
theorem disabling_total (convertible : c.Convertible o.weightLimit) (known : e ∈ f.events)
    (s : State) (strategy : Strategy) :
    ∃ answer, (Search.of f f.basis c ls o strategy).disabling solve s e = .ok answer := by
  cases strategy with
  | basicPure => exact disabling_basic_total rooted known ..
  | basicImpure => exact disabling_basic_total rooted known ..
  | plainPure => exact ⟨_, firstDisabling_eq rooted known _ s⟩
  | inequality => exact disabling_programs_total rooted length convertible s e

include length in
theorem separating_total (convertible : c.Convertible o.weightLimit) (s t : State)
    (strategy : Strategy) :
    ∃ answer, (Search.of f f.basis c ls o strategy).separating solve s t = .ok answer := by
  cases strategy with
  | basicPure => exact ⟨_, rfl⟩
  | basicImpure => exact ⟨_, rfl⟩
  | plainPure => exact ⟨_, rfl⟩
  | inequality => exact separating_programs_total length convertible s t

include rooted length

/-- A search does not answer with none where a region of its strategy tells two states apart. -/
theorem separating_ne_none (exactly : solve.Exact) (representable : c.Representable o.weightLimit)
    (yields : strategy.Yields f c ls o r) (separates : f.separates r s t = true) :
    (Search.of f f.basis c ls o strategy).separating solve s t ≠ .ok none := by
  have listed (impure : Bool) (some : ∃ b ∈ f.basis, f.separates b s t = true) :
      (Search.basic f.basis (f.basicCandidates f.basis) impure).separating solve s t ≠
        .ok none := by
    intro none
    obtain ⟨b, basis, separates⟩ := some
    exact Bool.false_ne_true ((separating_basic_eq_none_iff.1 none b basis).symm.trans separates)
  have candidate (member : r ∈ f.basicCandidates f.basis) :=
    (rooted.valid_basicCandidates member).exists_basis_separates rooted separates
  cases strategy with
  | basicPure => exact listed false (candidate yields)
  | basicImpure =>
    rcases yields with member | conditioned
    · exact listed true (candidate member)
    · exact listed true ((conditioned.valid rooted).exists_basis_separates rooted separates)
  | plainPure =>
    intro none
    exact List.find?_eq_none.1 (Except.ok.inj none) r yields separates
  | inequality =>
    intro none
    have all := (separating_programs_eq_none_iff rooted length exactly representable).1 none r
      ((admitted_iff representable).1 yields)
    exact Bool.false_ne_true (all.symm.trans separates)

/-- Nor where one of them disables the event. -/
theorem disabling_ne_none (uniform : (∀ l ∈ ls, l = none) ∨ ∀ l ∈ ls, l ≠ none)
    (exactly : solve.Exact) (representable : c.Representable o.weightLimit) (known : e ∈ f.events)
    (yields : strategy.Yields f c ls o r) (disables : f.disables r s e = true) :
    (Search.of f f.basis c ls o strategy).disabling solve s e ≠ .ok none := by
  intro none
  obtain ⟨i, index, _⟩ := rooted.eventIndex?_of_mem known
  cases strategy with
  | basicPure =>
    have all := (disabling_basic_eq_none rooted index none).1 r yields
    exact Bool.false_ne_true (all.symm.trans disables)
  | basicImpure =>
    obtain ⟨all, conditions⟩ := disabling_basic_eq_none rooted index none
    rcases yields with member | conditioned
    · exact Bool.false_ne_true ((all r member).symm.trans disables)
    · obtain ⟨q, member, same⟩ := conditioned.exists_effect rooted
      have fewer := (conditioned.valid rooted).fewer_of_disables rooted.wellFormed same disables
      exact withSideCondition?_ne_none fewer (conditions rfl (disables_iff.1 disables).1 q member)
  | plainPure =>
    have first := (firstDisabling_eq rooted known (f.plainCandidates c.bound) s).symm.trans none
    exact List.find?_eq_none.1 (Except.ok.inj first) r yields disables
  | inequality =>
    have all :=
      (disabling_programs_eq_none_iff rooted length uniform exactly representable known).1 none r
        ((admitted_iff representable).1 yields)
    exact Bool.false_ne_true (all.symm.trans disables)

end Search

/-! ### Chains -/

theorem Frame.Eligible.obtainable (eligible : f.Eligible c ls o.weightLimit r)
    (representable : c.Representable o.weightLimit) : f.Obtainable c ls o r :=
  ⟨.inequality, rfl, (admitted_iff representable).2 eligible⟩

namespace SearchChain

variable (rooted : f.Rooted root) (located : f.locations = .ok ls)

include located in
theorem separating_total (convertible : c.Convertible o.weightLimit) (s t : State) :
    ∃ answer, (of f f.basis c ls o).separating solve s t = .ok answer := by
  apply Frame.firstSome_total
  rintro ⟨strategy, search⟩ member
  obtain ⟨_, rfl⟩ := mem_searches.1 member
  exact Search.separating_total (Frame.locations_uniform located).1 convertible s t strategy

include rooted located

theorem disabling_total (convertible : c.Convertible o.weightLimit) (known : e ∈ f.events)
    (s : State) :
    ∃ answer, (of f f.basis c ls o).disabling solve s e = .ok answer := by
  apply Frame.firstSome_total
  rintro ⟨strategy, search⟩ member
  obtain ⟨_, rfl⟩ := mem_searches.1 member
  exact Search.disabling_total rooted (Frame.locations_uniform located).1 convertible known s
    strategy

/-- If only programs can be tried, and their bounds are beyond double precision, no search for a
region that disables an event gets to an end. -/
theorem disabling_overflow
    (only : ∀ strategy : Strategy, strategy.refusal? f.size c ls o = none → strategy = .inequality)
    (beyond : ¬ c.Convertible o.weightLimit) (known : e ∈ f.events)
    (found : f.isReachable s = true) :
    (of f f.basis c ls o).disabling solve s e = .error .doubleOverflow := by
  obtain ⟨i, index, inside⟩ := rooted.eventIndex?_of_mem known
  obtain ⟨l, at_i⟩ : ∃ l, ls[i]? = some l :=
    ⟨_, List.getElem?_eq_getElem ((Frame.locations_uniform located).1 ▸ inside)⟩
  obtain ⟨⟨strategy, search⟩, rest, searches⟩ : ∃ first rest,
      (of f f.basis c ls o).searches = first :: rest :=
    List.exists_cons_of_ne_nil (List.ne_nil_of_mem (mem_searches.2 ⟨rfl, rfl⟩ :
      (Strategy.inequality, _) ∈ (of f f.basis c ls o).searches))
  obtain ⟨usable, rfl⟩ := mem_searches.1 (searches ▸ List.mem_cons_self)
  obtain rfl := only strategy usable
  rw [disabling, searches]
  refine Frame.firstSome_cons_error ?_
  have program : f.eventProgram c ls o.weightLimit s i l = .error .doubleOverflow :=
    bind_eq_error.2 (.inl (bind_eq_error.2 (.inl (rounded_of_not_convertible beyond))))
  exact (Frame.disabling_programs_eq found index at_i).trans (bind_eq_error.2 (.inl program))

variable (exactly : solve.Exact) (representable : c.Representable o.weightLimit)

include exactly representable

theorem separating_eq_none_iff : (of f f.basis c ls o).separating solve s t = .ok none ↔
    ∀ r, f.Obtainable c ls o r → f.separates r s t = false := by
  constructor
  · rintro none r ⟨strategy, usable, yields⟩
    rw [← Bool.not_eq_true]
    intro separates
    have each := Frame.firstSome_eq_none_iff.1 none _ (mem_searches.2 ⟨usable, rfl⟩)
    exact Search.separating_ne_none rooted (Frame.locations_uniform located).1 exactly
      representable yields separates each
  · intro none
    obtain ⟨answer, found⟩ : ∃ answer, (of f f.basis c ls o).separating solve s t = .ok answer :=
      separating_total located representable.convertible s t
    cases answer with
    | none => exact found
    | some r =>
      have separates := (separating_sound rooted found).2
      rw [none r (obtainable_of_separating exactly.inRange found)] at separates
      exact absurd separates Bool.false_ne_true

theorem disabling_eq_none_iff (known : e ∈ f.events) :
    (of f f.basis c ls o).disabling solve s e = .ok none ↔
      ∀ r, f.Obtainable c ls o r → f.disables r s e = false := by
  obtain ⟨length, uniform⟩ := Frame.locations_uniform located
  constructor
  · rintro none r ⟨strategy, usable, yields⟩
    rw [← Bool.not_eq_true]
    intro disables
    have each := Frame.firstSome_eq_none_iff.1 none _ (mem_searches.2 ⟨usable, rfl⟩)
    exact Search.disabling_ne_none rooted length uniform exactly representable known yields
      disables each
  · intro none
    obtain ⟨answer, found⟩ : ∃ answer, (of f f.basis c ls o).disabling solve s e = .ok answer :=
      disabling_total rooted located representable.convertible known s
    cases answer with
    | none => exact found
    | some r =>
      have disables := (disabling_sound rooted found).2
      rw [none r (obtainable_of_disabling exactly.inRange found)] at disables
      exact absurd disables Bool.false_ne_true

theorem separating_complete (obtainable : f.Obtainable c ls o r)
    (separates : f.separates r s t = true) :
    ∃ q, (of f f.basis c ls o).separating solve s t = .ok (some q) := by
  obtain ⟨answer, found⟩ : ∃ answer, (of f f.basis c ls o).separating solve s t = .ok answer :=
    separating_total located representable.convertible s t
  cases answer with
  | some q => exact ⟨q, found⟩
  | none =>
    rw [(separating_eq_none_iff rooted located exactly representable).1 found r obtainable]
      at separates
    exact absurd separates Bool.false_ne_true

theorem disabling_complete (known : e ∈ f.events) (obtainable : f.Obtainable c ls o r)
    (disables : f.disables r s e = true) :
    ∃ q, (of f f.basis c ls o).disabling solve s e = .ok (some q) := by
  obtain ⟨answer, found⟩ : ∃ answer, (of f f.basis c ls o).disabling solve s e = .ok answer :=
    disabling_total rooted located representable.convertible known s
  cases answer with
  | some q => exact ⟨q, found⟩
  | none =>
    rw [(disabling_eq_none_iff rooted located exactly representable known).1 found r obtainable]
      at disables
    exact absurd disables Bool.false_ne_true

end SearchChain

end NetSynthesis
