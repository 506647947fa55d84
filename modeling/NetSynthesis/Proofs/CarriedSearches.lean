import NetSynthesis.Proofs.CarriedRegions
import NetSynthesis.Separation

/-! Searches carried from one frame to an alike one. The regions that are listed beforehand are the
same, and so are the integer programs, so that every search gives the same answers to the same
problems with a solver whose answers depend on the program only. -/
namespace NetSynthesis

open SeparationProgram

variable {f g : Frame}

namespace Frame

theorem firstSome_map {α α' β β' : Type} {φ : α → α'} {ψ : β → β'}
    {search : α → Except Error (Option β)} {search' : α' → Except Error (Option β')}
    (each : ∀ a, search' (φ a) = (search a).map (Option.map ψ)) (xs : List α) :
    firstSome search' (xs.map φ) = (firstSome search xs).map (Option.map ψ) := by
  induction xs with
  | nil => rfl
  | cons a xs ih =>
    rw [List.map_cons, firstSome, firstSome, each a]
    cases search a with
    | error e => rfl
    | ok found =>
      cases found with
      | some b => rfl
      | none => exact ih

namespace Alike

variable (alike : f.Alike g)

include alike

/-! ### Regions listed beforehand -/

theorem pairCombinations_cast (regions : List (Region f.size)) :
    g.pairCombinations (regions.map (.cast alike.size)) =
      (f.pairCombinations regions).map (.cast alike.size) := by
  induction regions with
  | nil => rfl
  | cons r rest ih =>
    rw [List.map_cons, pairCombinations, pairCombinations, ih, List.map_append,
      List.map_flatMap, List.flatMap_map]
    congr 1
    refine List.flatMap_congr fun q _ => ?_
    rw [List.map_flatMap]
    refine List.flatMap_congr fun k _ => ?_
    simp only [apply_ite (List.map (Region.cast alike.size))]
    rfl

theorem basicCandidates_cast (basis : List (Region f.size)) :
    g.basicCandidates (basis.map (.cast alike.size)) =
      (f.basicCandidates basis).map (.cast alike.size) := by
  rw [basicCandidates, basicCandidates, alike.pairCombinations_cast]
  simp only [List.map_append, List.map_map, Function.comp_def, Region.negate_cast,
    alike.withNormalMarking_cast]

theorem plainCandidates_eq (bound : Option Nat) :
    g.plainCandidates bound = (f.plainCandidates bound).map (.cast alike.size) := by
  have vectors : signVectors g.size = signVectors f.size := by rw [alike.size]
  have sizes : List.range g.size = List.range f.size := by rw [alike.size]
  have region (v : IntVector) : g.withNormalMarking (.ofEffect g.size v) =
      (f.withNormalMarking (.ofEffect f.size v)).cast alike.size := by
    rw [← Region.ofEffect_cast alike.size, alike.withNormalMarking_cast]
  simp only [plainCandidates, alike.cycles_eq, vectors, sizes, region, List.filter_map,
    List.map_map, Function.comp_def, alike.bound_cast]

/-! ### Side conditions -/

/-- The least number of tokens is that of a state that both frames have. -/
theorem lowest_cast (r : Region f.size) (e : Event) :
    ((g.enabling e).map (g.tokens (r.cast alike.size))).min? =
      ((f.enabling e).map (f.tokens r)).min? := by
  ext k
  simp only [List.min?_eq_some_iff, List.mem_map, alike.enabling, alike.tokens_cast]

theorem withSideCondition?_cast (r : Region f.size) (s : State) (e : Event) (i : Nat) :
    g.withSideCondition? (r.cast alike.size) s e i =
      (f.withSideCondition? r s e i).map (.cast alike.size) := by
  simp only [withSideCondition?, alike.lowest_cast, alike.tokens_cast, Region.weightAt_cast,
    Region.setWeight_cast, apply_ite (Option.map _), Option.map_none, Option.map_some]

theorem sideConditions_cast (regions : List (Region f.size)) (s : State) (e : Event) (i : Nat) :
    (regions.map (.cast alike.size)).findSome? (g.withSideCondition? · s e i) =
      (regions.findSome? (f.withSideCondition? · s e i)).map (.cast alike.size) := by
  simp only [List.findSome?_map, Function.comp_def, alike.withSideCondition?_cast,
    List.map_findSome?]

/-! ### Integer programs -/

theorem programWithin_eq (c : NetClass) (consumers : Option (List Nat)) (b : ProgramBounds)
    (heavy : Nat) :
    g.programWithin c consumers b heavy = f.programWithin c consumers b heavy := by
  have states (first : State × IntVector → Row) (row : State × IntVector → Arc → Row) :
      (f.table.flatMap fun p => first p :: (g.graph.outgoing p.1).map (row p)) =
        f.table.flatMap fun p => first p :: (f.graph.outgoing p.1).map (row p) := by
    refine List.flatMap_congr fun p member => ?_
    rw [alike.outgoing p.1 (mem_table.1 member).1]
  simp only [programWithin, alike.chords, alike.edgeVector_eq, alike.table, alike.eventIndex?_eq,
    ← alike.size, states]

theorem solverProgram_eq (c : NetClass) (limit : Nat) :
    g.solverProgram c limit = f.solverProgram c limit := by
  funext consumers
  simp only [solverProgram, alike.programWithin_eq]

theorem statePrograms_eq (c : NetClass) (ls : Locations) (limit : Nat) (difference : IntVector) :
    g.statePrograms c ls limit difference = f.statePrograms c ls limit difference := by
  simp only [statePrograms, alike.solverProgram_eq]

theorem eventProgram_eq (c : NetClass) (ls : Locations) (limit : Nat) (s : State) (i : Nat)
    (location : Option Location) :
    g.eventProgram c ls limit s i location = f.eventProgram c ls limit s i location := by
  simp only [eventProgram, disablingRow, alike.solverProgram_eq, alike.vector_eq]

variable (solve : Solver)

/-- The region of a point is looked at in the same way. -/
theorem solution?_cast (c : NetClass) (ls : Locations) {solves : Region f.size → Bool}
    {solves' : Region g.size → Bool} (same : ∀ r, solves' (r.cast alike.size) = solves r)
    (p : IntegerProgram) : g.solution? solve c ls solves' p =
      (f.solution? solve c ls solves p).map (Option.map (.cast alike.size)) := by
  rw [solution?, solution?]
  cases solve p with
  | none => rfl
  | some x =>
    simp only [← Region.regionOf_cast alike.size, alike.accepts_cast, same]
    cases f.accepts c ls (regionOf f.size x) with
    | error e => rfl
    | ok accepted =>
      cases accepted with
      | false => rfl
      | true => cases found : solves (regionOf f.size x) <;> rfl

end Alike

end Frame

/-! ### Answers -/

namespace Search

def cast (same : f.size = g.size) : Search f → Search g
  | basic basis candidates impure =>
    .basic (basis.map (.cast same)) (candidates.map (.cast same)) impure
  | plain candidates => .plain (candidates.map (.cast same))
  | programs c ls limit => .programs c ls limit

variable (alike : f.Alike g)

include alike

theorem of_cast (basis : List (Region f.size)) (c : NetClass) (ls : Locations) (o : Options)
    (strategy : Strategy) : Search.of g (basis.map (.cast alike.size)) c ls o strategy =
      (Search.of f basis c ls o strategy).cast alike.size := by
  cases strategy with
  | basicPure => simp only [Search.of, cast, alike.basicCandidates_cast]
  | basicImpure => simp only [Search.of, cast, alike.basicCandidates_cast]
  | plainPure => simp only [Search.of, cast, alike.plainCandidates_eq]
  | inequality => rfl

theorem separating_cast (solve : Solver) (s t : State) (search : Search f) :
    (search.cast alike.size).separating solve s t =
      (search.separating solve s t).map (Option.map (.cast alike.size)) := by
  cases search with
  | basic basis candidates impure =>
    simp only [cast, separating, List.find?_map, Function.comp_def, alike.separates_cast,
      Except.map, Option.map_map, alike.withNormalMarking_cast]
  | plain candidates =>
    simp only [cast, separating, List.find?_map, Function.comp_def, alike.separates_cast,
      Except.map]
  | programs c ls limit =>
    simp only [cast, separating, alike.isReachable_eq, alike.vector_eq, alike.statePrograms_eq]
    split
    · rfl
    · have each (p : IntegerProgram) : g.solution? solve c ls (g.separates · s t) (id p) =
          (f.solution? solve c ls (f.separates · s t) p).map (Option.map (.cast alike.size)) :=
        alike.solution?_cast solve c ls (fun r => alike.separates_cast r s t) p
      cases f.statePrograms c ls limit ((f.vector s).sub (f.vector t)) with
      | error e => rfl
      | ok programs =>
        have answers := Frame.firstSome_map each programs
        rwa [List.map_id] at answers

theorem firstDisabling_cast (regions : List (Region f.size)) (s : State) (e : Event) :
    firstDisabling (regions.map (.cast alike.size)) s e =
      (firstDisabling regions s e).map (Option.map (.cast alike.size)) := by
  simp only [firstDisabling, alike.isReachable_eq, alike.eventIndex?_eq, List.isEmpty_map,
    List.find?_map, Function.comp_def, alike.disables_cast]
  split <;> rfl

theorem disabling_cast (solve : Solver) (s : State) (e : Event) (search : Search f) :
    (search.cast alike.size).disabling solve s e =
      (search.disabling solve s e).map (Option.map (.cast alike.size)) := by
  cases search with
  | basic basis candidates impure =>
    simp only [cast, disabling, firstDisabling_cast alike, alike.eventIndex?_eq,
      alike.isReachable_eq]
    cases firstDisabling candidates s e with
    | error e => rfl
    | ok found =>
      cases found with
      | some r => rfl
      | none =>
        cases f.eventIndex? e with
        | none => rfl
        | some i =>
          have conditions := alike.sideConditions_cast (candidates ++ [Region.trivial f.size]) s e i
          rw [List.map_append, List.map_singleton, Region.trivial_cast] at conditions
          change (if _ then _ else _) = Except.map _ (if _ then _ else _)
          split
          · exact congrArg Except.ok conditions
          · rfl
  | plain candidates => exact firstDisabling_cast alike candidates s e
  | programs c ls limit =>
    simp only [cast, disabling, alike.eventIndex?_eq, alike.isReachable_eq]
    cases f.eventIndex? e with
    | none => rfl
    | some i =>
      simp only
      split
      · rfl
      · cases ls[i]? with
        | none => rfl
        | some location =>
          simp only [alike.eventProgram_eq]
          cases f.eventProgram c ls limit s i location with
          | error e => rfl
          | ok p =>
            have each : g.solution? solve c ls (g.disables · s e) p =
                (f.solution? solve c ls (f.disables · s e) p).map
                  (Option.map (.cast alike.size)) :=
              alike.solution?_cast solve c ls (fun r => alike.disables_cast r s e) p
            exact each

end Search

namespace SearchChain

def cast (same : f.size = g.size) (chain : SearchChain f) : SearchChain g :=
  ⟨chain.searches.map fun (strategy, search) => (strategy, search.cast same)⟩

variable (alike : f.Alike g)

include alike

theorem of_cast (basis : List (Region f.size)) (c : NetClass) (ls : Locations) (o : Options) :
    SearchChain.of g (basis.map (.cast alike.size)) c ls o =
      (SearchChain.of f basis c ls o).cast alike.size := by
  simp only [SearchChain.of, cast, List.map_map, Function.comp_def, Search.of_cast alike,
    ← alike.size]

theorem separating_cast (solve : Solver) (s t : State) (chain : SearchChain f) :
    (chain.cast alike.size).separating solve s t =
      (chain.separating solve s t).map (Option.map (.cast alike.size)) :=
  Frame.firstSome_map (fun (_, search) => search.separating_cast alike solve s t) chain.searches

theorem disabling_cast (solve : Solver) (s : State) (e : Event) (chain : SearchChain f) :
    (chain.cast alike.size).disabling solve s e =
      (chain.disabling solve s e).map (Option.map (.cast alike.size)) :=
  Frame.firstSome_map (fun (_, search) => search.disabling_cast alike solve s e) chain.searches

end SearchChain

end NetSynthesis
