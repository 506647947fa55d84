import NetSynthesis.Proofs.ExceptSteps
import NetSynthesis.Proofs.ProgramMeaning
import NetSynthesis.Proofs.SearchSoundness

/-! Answers of the search by programs. With an exact solver the last look discards nothing: the
search answers with a region that costs least if there is one to be found, and else with none. -/
namespace NetSynthesis

open IntVector SeparationProgram

namespace Frame

variable {f : Frame} {root : State} {solve : Solver} {c : NetClass} {ls : Locations} {limit : Nat}
  {consumers : Option (List Nat)} {p : IntegerProgram} {solves : Region f.size → Bool}
  {r : Region f.size} {x : IntVector} {s t : State} {e : Event}

theorem accepts_eq (length : ls.length = f.size) :
    f.accepts c ls r = .ok (f.isValid r && (f.inClass r c && isLocal r ls)) := by
  rw [accepts, satisfies?_some length.ge, satisfies]
  cases f.isValid r <;> rfl

theorem solution?_total (length : ls.length = f.size) (solves : Region f.size → Bool)
    (p : IntegerProgram) : ∃ answer, f.solution? solve c ls solves p = .ok answer := by
  rw [solution?]
  cases solve p with
  | none => exact ⟨none, rfl⟩
  | some x =>
    simp only [accepts_eq length, bind, Except.bind, pure, Except.pure]
    split <;> exact ⟨_, rfl⟩

/-! ### Exact solvers -/

/-- The feasible points of the program are those of regions that the last look lets pass. -/
structure Asks (f : Frame) (c : NetClass) (ls : Locations) (solves : Region f.size → Bool)
    (p : IntegerProgram) : Prop where
  shape : ∀ x, p.feasible x = true → ∃ switches, x = point (regionOf f.size x) switches
  sound : ∀ (q : Region f.size) switches, p.feasible (point q switches) = true →
    (f.isValid q && (f.inClass q c && isLocal q ls)) = true ∧ solves q = true

namespace Asks

variable (asks : f.Asks c ls solves p) (exactly : solve.Exact) (length : ls.length = f.size)

include asks exactly length

theorem solution?_eq :
    f.solution? solve c ls solves p = .ok ((solve p).map (regionOf f.size)) := by
  cases answer : solve p with
  | none => rw [solution?, answer]; rfl
  | some x =>
    have feasible := (exactly.optimal p x answer).1
    obtain ⟨switches, split⟩ := asks.shape x feasible
    obtain ⟨accepted, good⟩ := asks.sound _ switches (split ▸ feasible)
    simp only [solution?, answer, accepts_eq length, accepted, good, bind, Except.bind, pure,
      Except.pure, if_true, Option.map_some]

theorem solution?_eq_none_iff : f.solution? solve c ls solves p = .ok none ↔
    ¬ ∃ (q : Region f.size) (switches : IntVector), p.feasible (point q switches) = true := by
  rw [asks.solution?_eq exactly length, Except.ok.injEq, Option.map_eq_none_iff]
  constructor
  · rintro answer ⟨q, switches, feasible⟩
    rw [exactly.complete p answer] at feasible
    exact Bool.false_ne_true feasible
  · intro infeasible
    rw [Option.eq_none_iff_forall_ne_some]
    intro x answer
    have feasible := (exactly.optimal p x answer).1
    obtain ⟨switches, split⟩ := asks.shape x feasible
    exact infeasible ⟨_, switches, split ▸ feasible⟩

end Asks

theorem firstSome_solution?_eq_none_iff {programs : List IntegerProgram}
    (asks : ∀ p ∈ programs, f.Asks c ls solves p) (exactly : solve.Exact)
    (length : ls.length = f.size) :
    firstSome (f.solution? solve c ls solves) programs = .ok none ↔
      ¬ ∃ (q : Region f.size), ∃ p ∈ programs, ∃ (switches : IntVector),
        p.feasible (point q switches) = true := by
  rw [firstSome_eq_none_iff]
  constructor
  · rintro each ⟨q, p, tried, switches, feasible⟩
    exact ((asks p tried).solution?_eq_none_iff exactly length).1 (each p tried)
      ⟨q, switches, feasible⟩
  · intro none p tried
    apply ((asks p tried).solution?_eq_none_iff exactly length).2
    rintro ⟨q, switches, feasible⟩
    exact none ⟨q, p, tried, switches, feasible⟩

theorem total_append (v w : IntVector) : total (v ++ w) = total v + total w := by
  induction v with
  | nil => exact (Int.zero_add _).symm
  | cons k v ih =>
    have step : total (k :: (v ++ w)) = k + total (v ++ w) := rfl
    rw [List.cons_append, step, ih, ← Int.add_assoc]
    rfl

theorem cost_point (priced : p.priced = 1 + 2 * f.size) (r : Region f.size)
    (switches : IntVector) : p.cost (point r switches) = r.cost := by
  have weights : (point r switches).take (1 + 2 * f.size) =
      r.initial :: (r.backward ++ r.forward) := by
    rw [point, Nat.add_comm, List.take_succ_cons, ← List.append_assoc, List.take_left']
    simp [Nat.two_mul]
  have step : total (r.initial :: (r.backward ++ r.forward)) =
      r.initial + total (r.backward ++ r.forward) := rfl
  rw [IntegerProgram.cost, priced, weights, step, total_append, Region.cost, Int.add_assoc]

/-- A solution costs no more than the other regions of feasible points. -/
theorem Asks.cost_le (asks : f.Asks c ls solves p) (exactly : solve.Exact)
    (length : ls.length = f.size) (priced : p.priced = 1 + 2 * f.size)
    (found : f.solution? solve c ls solves p = .ok (some r)) {q : Region f.size}
    {switches : IntVector} (feasible : p.feasible (point q switches) = true) :
    r.cost ≤ q.cost := by
  rw [asks.solution?_eq exactly length] at found
  obtain ⟨x, answer, rfl⟩ := Option.map_eq_some_iff.1 (Except.ok.inj found)
  obtain ⟨inside, least⟩ := exactly.optimal p x answer
  obtain ⟨own, split⟩ := asks.shape x inside
  have cost : p.cost x = (regionOf f.size x).cost := by
    conv_lhs => rw [split]
    exact cost_point priced _ own
  rw [← cost, ← cost_point priced q switches]
  exact least _ feasible

/-! ### Programs of problems -/

theorem Eligible.accepted (eligible : f.Eligible c ls limit r) :
    (f.isValid r && (f.inClass r c && Frame.isLocal r ls)) = true := by
  rw [isValid_iff.2 eligible.valid, eligible.inClass, eligible.isLocal]
  rfl

/-- Every program that is tried for two states is a base program with one row more. -/
theorem eq_add_of_mem_statePrograms {difference : IntVector}
    (tried : p ∈ f.exactStatePrograms c ls limit difference) :
    ∃ consumers row, p = (f.exactProgram c limit consumers).add row := by
  obtain ⟨consumers, _, added⟩ := List.mem_flatMap.1 tried
  obtain ⟨row, _, rfl⟩ := List.mem_map.1 added
  exact ⟨consumers, row, rfl⟩

theorem shape_add {row : Row}
    (feasible : ((f.exactProgram c limit consumers).add row).feasible x = true) :
    ∃ switches, x = point (regionOf f.size x) switches :=
  (fits_of_inRange (Bool.and_eq_true_iff.1 (feasible_add.1 feasible).1).1).1

section Programs

variable (rooted : f.Rooted root) (length : ls.length = f.size)

include rooted length

theorem eventProgram_asks (uniform : (∀ l ∈ ls, l = none) ∨ ∀ l ∈ ls, l ≠ none)
    (found : f.isReachable s = true) {i : Nat} (index : f.eventIndex? e = some i)
    {l : Option Location} (at_i : ls[i]? = some l) :
    f.Asks c ls (f.disables · s e) (f.exactEventProgram c ls limit s i l) := by
  refine ⟨fun x feasible => shape_add feasible, fun q switches feasible => ?_⟩
  obtain ⟨eligible, disables⟩ :=
    (exists_eventProgram_iff rooted length uniform found index at_i).1 ⟨switches, feasible⟩
  exact ⟨eligible.accepted, disables⟩

theorem statePrograms_asks (hs : f.isReachable s = true) (ht : f.isReachable t = true)
    (tried : p ∈ f.exactStatePrograms c ls limit ((f.vector s).sub (f.vector t))) :
    f.Asks c ls (f.separates · s t) p := by
  refine ⟨fun x feasible => ?_, fun q switches feasible => ?_⟩
  · obtain ⟨consumers, row, rfl⟩ := eq_add_of_mem_statePrograms tried
    exact shape_add feasible
  · obtain ⟨eligible, separates⟩ :=
      (exists_statePrograms_iff rooted length hs ht).1 ⟨p, tried, switches, feasible⟩
    exact ⟨eligible.accepted, separates⟩

end Programs

/-! ### The search by programs -/

theorem disabling_programs_eq (found : f.isReachable s = true) {i : Nat}
    (index : f.eventIndex? e = some i) {l : Option Location} (at_i : ls[i]? = some l) :
    (Search.programs c ls limit : Search f).disabling solve s e =
      (f.eventProgram c ls limit s i l).bind (f.solution? solve c ls (f.disables · s e)) := by
  rw [Search.disabling]
  simp only [index, found, at_i, Bool.not_true, Bool.false_eq_true, if_false]
  rfl

/-- The programs that are tried for two states: none if no path tells them apart. -/
def triedPrograms (f : Frame) (c : NetClass) (ls : Locations) (limit : Nat) (s t : State) :
    Except Error (List IntegerProgram) :=
  if !(f.isReachable s && f.isReachable t) || ((f.vector s).sub (f.vector t)).isZero then .ok []
  else f.statePrograms c ls limit ((f.vector s).sub (f.vector t))

theorem separating_programs_eq (solve : Solver) (c : NetClass) (ls : Locations) (limit : Nat)
    (s t : State) : (Search.programs c ls limit : Search f).separating solve s t =
      (f.triedPrograms c ls limit s t).bind
        (firstSome (f.solution? solve c ls (f.separates · s t))) := by
  rw [Search.separating, triedPrograms]
  split <;> rfl

def exactTriedPrograms (f : Frame) (c : NetClass) (ls : Locations) (limit : Nat) (s t : State) :
    List IntegerProgram :=
  if !(f.isReachable s && f.isReachable t) || ((f.vector s).sub (f.vector t)).isZero then []
  else f.exactStatePrograms c ls limit ((f.vector s).sub (f.vector t))

theorem triedPrograms_eq (representable : c.Representable limit) :
    f.triedPrograms c ls limit s t = .ok (f.exactTriedPrograms c ls limit s t) := by
  rw [triedPrograms, exactTriedPrograms]
  split
  · rfl
  · exact representable.statePrograms ls _

theorem triedPrograms_total (convertible : c.Convertible limit) (s t : State) :
    ∃ programs, f.triedPrograms c ls limit s t = .ok programs := by
  rw [triedPrograms]
  split
  · exact ⟨[], rfl⟩
  · exact convertible.statePrograms ls _

theorem not_isZero_of_separates (separates : f.separates r s t = true) :
    ((f.vector s).sub (f.vector t)).isZero = false := by
  rw [← Bool.not_eq_true]
  intro zero
  have zeros : ∀ x ∈ (f.vector s).sub (f.vector t), x = 0 := by simpa [isZero] using zero
  have none := dot_of_zeros r.effect _ zeros
  rw [dot_difference] at none
  have differ := (separates_iff.1 separates).2.2
  omega

section Programs

variable (rooted : f.Rooted root) (length : ls.length = f.size)
  (uniform : (∀ l ∈ ls, l = none) ∨ ∀ l ∈ ls, l ≠ none)

include rooted length

theorem exists_exactTriedPrograms_iff : (∃ p ∈ f.exactTriedPrograms c ls limit s t, ∃ switches,
    p.feasible (point r switches) = true) ↔
      f.Eligible c ls limit r ∧ f.separates r s t = true := by
  rw [exactTriedPrograms]
  split
  · rename_i untried
    simp only [List.not_mem_nil, false_and, exists_false, false_iff, not_and]
    intro _ separates
    obtain ⟨hs, ht, _⟩ := separates_iff.1 separates
    simp [hs, ht, not_isZero_of_separates separates] at untried
  · rename_i tried
    simp only [Bool.or_eq_true, Bool.not_eq_true', Bool.and_eq_false_iff, not_or,
      Bool.not_eq_false] at tried
    exact exists_statePrograms_iff rooted length tried.1.1 tried.1.2

theorem exactTriedPrograms_asks (tried : p ∈ f.exactTriedPrograms c ls limit s t) :
    f.Asks c ls (f.separates · s t) p := by
  rw [exactTriedPrograms] at tried
  split at tried
  · simp at tried
  · rename_i both
    simp only [Bool.or_eq_true, Bool.not_eq_true', Bool.and_eq_false_iff, not_or,
      Bool.not_eq_false] at both
    exact statePrograms_asks rooted length both.1.1 both.1.2 tried

omit rooted in
theorem separating_programs_total (convertible : c.Convertible limit) (s t : State) :
    ∃ answer, (Search.programs c ls limit : Search f).separating solve s t = .ok answer := by
  obtain ⟨programs, built⟩ : ∃ programs, f.triedPrograms c ls limit s t = .ok programs :=
    triedPrograms_total convertible s t
  rw [separating_programs_eq, built, Except.bind]
  exact firstSome_total fun p _ => solution?_total length _ p

theorem separating_programs_eq_none_iff (exactly : solve.Exact)
    (representable : c.Representable limit) :
    (Search.programs c ls limit : Search f).separating solve s t = .ok none ↔
      ∀ r, f.Eligible c ls limit r → f.separates r s t = false := by
  have asks (p : IntegerProgram) (tried : p ∈ f.exactTriedPrograms c ls limit s t) :
      f.Asks c ls (f.separates · s t) p := exactTriedPrograms_asks rooted length tried
  rw [separating_programs_eq, triedPrograms_eq representable, Except.bind,
    firstSome_solution?_eq_none_iff asks exactly length]
  simp only [exists_exactTriedPrograms_iff rooted length, not_exists, not_and, Bool.not_eq_true]

theorem disabling_programs_total (convertible : c.Convertible limit) (s : State) (e : Event) :
    ∃ answer, (Search.programs c ls limit : Search f).disabling solve s e = .ok answer := by
  cases index : f.eventIndex? e with
  | none => exact ⟨none, by simp [Search.disabling, index]⟩
  | some i =>
    have inside : i < ls.length := length ▸ rooted.eventIndex?_lt index
    cases found : f.isReachable s with
    | false => exact ⟨none, by simp [Search.disabling, index, found]⟩
    | true =>
      obtain ⟨p, built⟩ := convertible.eventProgram (f := f) ls s i ls[i]
      rw [disabling_programs_eq found index (List.getElem?_eq_getElem inside), built, Except.bind]
      exact solution?_total length _ p

include uniform

theorem disabling_programs_eq_none_iff (exactly : solve.Exact)
    (representable : c.Representable limit) (known : e ∈ f.events) :
    (Search.programs c ls limit : Search f).disabling solve s e = .ok none ↔
      ∀ r, f.Eligible c ls limit r → f.disables r s e = false := by
  obtain ⟨i, index, inside⟩ := rooted.eventIndex?_of_mem known
  cases found : f.isReachable s with
  | false => simp [Search.disabling, index, found, disables]
  | true =>
    obtain ⟨l, at_i⟩ : ∃ l, ls[i]? = some l := ⟨_, List.getElem?_eq_getElem (length ▸ inside)⟩
    have asks : f.Asks c ls (f.disables · s e) (f.exactEventProgram c ls limit s i l) :=
      eventProgram_asks rooted length uniform found index at_i
    rw [disabling_programs_eq found index at_i, representable.eventProgram, Except.bind,
      asks.solution?_eq_none_iff exactly length]
    simp only [exists_eventProgram_iff rooted length uniform found index at_i, not_exists, not_and,
      Bool.not_eq_true]

end Programs

end Frame

end NetSynthesis
