import NetSynthesis.Proofs.ChosenRegions
import NetSynthesis.Proofs.ExceptSteps
import NetSynthesis.Proofs.ListedRegions

/-! Regions found by a search. Whichever strategy answers and whatever the solver said, the region
is valid and solves the problem that was asked for. -/
namespace NetSynthesis

namespace Frame

variable {f : Frame} {root : State} {solve : Solver} {c : NetClass} {ls : Locations}

section FirstSome

variable {α β : Type} {g : α → Except Error (Option β)} {xs : List α} {a : α} {b : β}

theorem firstSome_cons_some (first : g a = .ok (some b)) :
    firstSome g (a :: xs) = .ok (some b) :=
  bind_eq_ok.2 ⟨_, first, rfl⟩

theorem firstSome_cons_none (first : g a = .ok none) : firstSome g (a :: xs) = firstSome g xs := by
  rw [firstSome, first]
  rfl

theorem firstSome_cons_error {e : Error} (first : g a = .error e) :
    firstSome g (a :: xs) = .error e :=
  bind_eq_error.2 (.inl first)

theorem firstSome_singleton : firstSome g [a] = g a := by
  cases first : g a with
  | error e => rw [firstSome, first]; rfl
  | ok answer =>
    cases answer with
    | some b => exact firstSome_cons_some first
    | none => exact firstSome_cons_none first

theorem firstSome_eq_some (found : firstSome g xs = .ok (some b)) :
    ∃ a ∈ xs, g a = .ok (some b) := by
  induction xs with
  | nil => simp [firstSome] at found
  | cons a xs ih =>
    obtain ⟨answer, first, rest⟩ := bind_eq_ok.1 found
    cases answer with
    | some b' =>
      obtain rfl := Option.some.inj (pure_eq_ok.1 rest)
      exact ⟨a, by simp, first⟩
    | none =>
      obtain ⟨a', later, answer⟩ := ih rest
      exact ⟨a', by simp [later], answer⟩

theorem firstSome_total (fine : ∀ a ∈ xs, ∃ answer, g a = .ok answer) :
    ∃ answer, firstSome g xs = .ok answer := by
  induction xs with
  | nil => exact ⟨none, rfl⟩
  | cons a xs ih =>
    obtain ⟨answer, first⟩ := fine a List.mem_cons_self
    cases answer with
    | some b => exact ⟨some b, firstSome_cons_some first⟩
    | none =>
      rw [firstSome_cons_none first]
      exact ih fun a member => fine a (List.mem_cons_of_mem _ member)

theorem firstSome_eq_none_iff : firstSome g xs = .ok none ↔ ∀ a ∈ xs, g a = .ok none := by
  induction xs with
  | nil => simp [firstSome]
  | cons a xs ih =>
    rw [List.forall_mem_cons, ← ih]
    constructor
    · intro none
      obtain ⟨answer, first, rest⟩ := bind_eq_ok.1 none
      cases answer with
      | some b => simp [pure_eq_ok] at rest
      | none => exact ⟨first, rest⟩
    · rintro ⟨first, rest⟩
      rw [firstSome_cons_none first, rest]

end FirstSome

theorem accepts_eq_true {r : Region f.size} (accepted : f.accepts c ls r = .ok true) :
    f.Valid r ∧ f.satisfies? r c (some ls) = .ok true := by
  rw [accepts] at accepted
  split at accepted
  · rename_i valid; exact ⟨isValid_iff.1 valid, accepted⟩
  · simp at accepted

/-- The region of a point is looked at again before it counts as a solution. -/
theorem solution?_eq_some {solves : Region f.size → Bool} {p : IntegerProgram} {r : Region f.size}
    (found : f.solution? solve c ls solves p = .ok (some r)) :
    f.Valid r ∧ f.satisfies? r c (some ls) = .ok true ∧ solves r = true := by
  rw [solution?] at found
  split at found
  · simp at found
  obtain ⟨answer, accepted, rest⟩ := bind_eq_ok.1 found
  cases answer with
  | false => simp [pure_eq_ok] at rest
  | true =>
    have chosen := pure_eq_ok.1 rest
    split at chosen
    · rename_i good
      obtain rfl := Option.some.inj chosen
      exact ⟨(accepts_eq_true accepted).1, (accepts_eq_true accepted).2, good⟩
    · simp at chosen

theorem solution?_eq_regionOf {solves : Region f.size → Bool} {p : IntegerProgram}
    {r : Region f.size} (found : f.solution? solve c ls solves p = .ok (some r)) :
    ∃ x, solve p = some x ∧ r = SeparationProgram.regionOf f.size x := by
  rw [solution?] at found
  split at found
  · simp at found
  rename_i x answered
  obtain ⟨answer, _, rest⟩ := bind_eq_ok.1 found
  refine ⟨x, answered, ?_⟩
  cases answer with
  | false => simp [pure_eq_ok] at rest
  | true =>
    have chosen := pure_eq_ok.1 rest
    split at chosen
    · exact (Option.some.inj chosen).symm
    · simp at chosen

end Frame

namespace Search

open NetSynthesis.Frame

variable {f : Frame} {root : State} {solve : Solver} {c : NetClass} {ls : Locations} {o : Options}
  {r : Region f.size} {s t : State} {e : Event}

theorem firstDisabling_eq_some {regions : List (Region f.size)}
    (found : firstDisabling regions s e = .ok (some r)) :
    r ∈ regions ∧ f.disables r s e = true := by
  rw [firstDisabling] at found
  split at found
  · simp at found
  · have first := Except.ok.inj found
    have disables := List.find?_some first
    exact ⟨List.mem_of_find?_eq_some first, disables⟩

theorem exists_of_separating_programs {limit : Nat}
    (found : (Search.programs c ls limit : Search f).separating solve s t = .ok (some r)) :
    ∃ programs, f.statePrograms c ls limit ((f.vector s).sub (f.vector t)) = .ok programs ∧
      ∃ p ∈ programs, f.solution? solve c ls (f.separates · s t) p = .ok (some r) := by
  rw [separating] at found
  split at found
  · simp at found
  · obtain ⟨programs, built, answer⟩ := bind_eq_ok.1 found
    exact ⟨programs, built, firstSome_eq_some answer⟩

theorem exists_of_disabling_programs {limit : Nat}
    (found : (Search.programs c ls limit : Search f).disabling solve s e = .ok (some r)) :
    f.isReachable s = true ∧ ∃ i location p,
      f.eventProgram c ls limit s i location = .ok p ∧
        f.solution? solve c ls (f.disables · s e) p = .ok (some r) := by
  rw [disabling] at found
  split at found
  · simp at found
  split at found
  · simp at found
  rename_i reached
  split at found
  · simp at found
  · obtain ⟨p, built, answer⟩ := bind_eq_ok.1 found
    exact ⟨by simpa using reached, _, _, p, built, answer⟩

theorem separating_sound (rooted : f.Rooted root) (strategy : Strategy)
    (found : (Search.of f f.basis c ls o strategy).separating solve s t = .ok (some r)) :
    f.Valid r ∧ f.separates r s t = true := by
  have listed (impure : Bool) (found : (Search.basic f.basis (f.basicCandidates f.basis)
      impure).separating solve s t = .ok (some r)) : f.Valid r ∧ f.separates r s t = true := by
    obtain ⟨q, first, rfl⟩ := Option.map_eq_some_iff.1 (Except.ok.inj found)
    refine ⟨rooted.valid_withNormalMarking (consistent_basis (List.mem_of_find?_eq_some first)), ?_⟩
    have separates := List.find?_some first
    rwa [withNormalMarking, separates_withInitial]
  cases strategy with
  | basicPure => exact listed false found
  | basicImpure => exact listed true found
  | plainPure =>
    have first := Except.ok.inj found
    have separates := List.find?_some first
    exact ⟨rooted.valid_plainCandidates (List.mem_of_find?_eq_some first), separates⟩
  | inequality =>
    obtain ⟨_, _, p, _, solution⟩ := exists_of_separating_programs found
    exact ⟨(solution?_eq_some solution).1, (solution?_eq_some solution).2.2⟩

/-- A candidate that disables the event, or a side condition added for it. -/
theorem disabling_basic_eq_some {basis candidates : List (Region f.size)} {impure : Bool}
    (found : (Search.basic basis candidates impure).disabling solve s e = .ok (some r)) :
    r ∈ candidates ∧ f.disables r s e = true ∨ impure = true ∧ f.isReachable s = true ∧
      ∃ i, f.eventIndex? e = some i ∧ ∃ q ∈ candidates ++ [Region.trivial f.size],
        f.withSideCondition? q s e i = some r := by
  obtain ⟨answer, first, rest⟩ := bind_eq_ok.1 found
  cases answer with
  | some q =>
    obtain rfl := Option.some.inj (pure_eq_ok.1 rest)
    exact .inl (firstDisabling_eq_some first)
  | none =>
    cases index : f.eventIndex? e with
    | none => simp [index, pure_eq_ok] at rest
    | some i =>
      simp only [index] at rest
      split at rest
      · rename_i both
        obtain ⟨impure, reached⟩ := Bool.and_eq_true_iff.1 both
        exact .inr ⟨impure, reached, i, rfl, List.exists_of_findSome?_eq_some (pure_eq_ok.1 rest)⟩
      · simp [pure_eq_ok] at rest

theorem disabling_basic_sound (rooted : f.Rooted root) {impure : Bool}
    (found : (Search.basic f.basis (f.basicCandidates f.basis) impure).disabling solve s e =
      .ok (some r)) : f.Valid r ∧ f.disables r s e = true := by
  rcases disabling_basic_eq_some found with ⟨member, disables⟩ | ⟨_, reached, i, index, q, member,
    added⟩
  · exact ⟨rooted.valid_basicCandidates member, disables⟩
  · exact rooted.valid_withSideCondition (rooted.valid_conditioning member) reached index
      (rooted.eventIndex?_lt index) added

theorem disabling_sound (rooted : f.Rooted root) (strategy : Strategy)
    (found : (Search.of f f.basis c ls o strategy).disabling solve s e = .ok (some r)) :
    f.Valid r ∧ f.disables r s e = true := by
  cases strategy with
  | basicPure => exact disabling_basic_sound rooted found
  | basicImpure => exact disabling_basic_sound rooted found
  | plainPure =>
    obtain ⟨member, disables⟩ := firstDisabling_eq_some found
    exact ⟨rooted.valid_plainCandidates member, disables⟩
  | inequality =>
    obtain ⟨_, _, _, _, _, solution⟩ := exists_of_disabling_programs found
    exact ⟨(solution?_eq_some solution).1, (solution?_eq_some solution).2.2⟩

end Search

namespace SearchChain

variable {f : Frame} {root : State} {solve : Solver} {c : NetClass} {ls : Locations} {o : Options}
  {r : Region f.size} {s t : State} {e : Event}

theorem mem_of {strategy : Strategy} {search : Search f}
    (member : (strategy, search) ∈ (of f f.basis c ls o).searches) :
    search = .of f f.basis c ls o strategy := by
  obtain ⟨used, _, eq⟩ := List.mem_map.1 member
  obtain ⟨rfl, rfl⟩ := Prod.mk.inj eq
  rfl

theorem separating_sound (rooted : f.Rooted root)
    (found : (of f f.basis c ls o).separating solve s t = .ok (some r)) :
    f.Valid r ∧ f.separates r s t = true := by
  obtain ⟨⟨strategy, search⟩, member, answer⟩ := Frame.firstSome_eq_some found
  obtain rfl := mem_of member
  exact Search.separating_sound rooted strategy answer

theorem disabling_sound (rooted : f.Rooted root)
    (found : (of f f.basis c ls o).disabling solve s e = .ok (some r)) :
    f.Valid r ∧ f.disables r s e = true := by
  obtain ⟨⟨strategy, search⟩, member, answer⟩ := Frame.firstSome_eq_some found
  obtain rfl := mem_of member
  exact Search.disabling_sound rooted strategy answer

end SearchChain

end NetSynthesis
