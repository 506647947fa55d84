import NetSynthesis.Proofs.CarriedSearches
import NetSynthesis.Proofs.NetCompleteness
import NetSynthesis.Proofs.WordFrames

/-! What cannot be reached has no part in event separation. A run on a frame is carried to an alike
one problem by problem until all event separation problems have been gone through, and what comes
then does not change which of them have failed. -/
namespace NetSynthesis

variable {f g : Frame}

def Synthesis.cast (same : f.size = g.size) (run : Synthesis f) : Synthesis g :=
  { run with chain := run.chain.cast same, regions := run.regions.map (.cast same) }

def Stop.cast (same : f.size = g.size) : Stop f → Stop g
  | .quickFail run => .quickFail (run.cast same)
  | .error e run => .error e (run.cast same)

namespace Synthesis

variable {solve : Solver} {c : NetClass} {ls : Locations} {o : Options} {languageOnly : Bool}
  {run run' : Synthesis f}

section Carried

variable (same : f.size = g.size) (run : Synthesis f)

@[simp] theorem regions_cast : (run.cast same).regions = run.regions.map (.cast same) := rfl

@[simp] theorem chain_cast : (run.cast same).chain = run.chain.cast same := rfl

@[simp] theorem failedEvents_cast : (run.cast same).failedEvents = run.failedEvents := rfl

theorem enter_cast (p : Phase) : (run.cast same).enter p = (run.enter p).cast same := rfl

theorem countProblem_cast :
    (run.cast same).countProblem = carry (cast same) (Stop.cast same) run.countProblem := by
  have budget : (run.cast same).options.budget = run.options.budget := rfl
  have examined : (run.cast same).examined = run.examined := rfl
  unfold countProblem
  simp only [budget, examined]
  cases run.options.budget with
  | none => rfl
  | some k =>
    simp only
    split <;> rfl

theorem afterFailure_cast :
    (run.cast same).afterFailure = carry (cast same) (Stop.cast same) run.afterFailure := by
  have options : (run.cast same).options = run.options := rfl
  rw [afterFailure, afterFailure, options]
  split <;> rfl

theorem failEvent_cast (s : State) (e : Event) :
    (run.cast same).failEvent s e = (run.failEvent s e).cast same := by
  unfold failEvent notify cast
  with_reducible rfl

end Carried

section Alike

variable (alike : f.Alike g)

include alike

theorem accept_cast (run : Synthesis f) (r : Region f.size) :
    (run.cast alike.size).accept (r.cast alike.size) = (run.accept r).cast alike.size := by
  simp only [accept, notify, cast, Region.text_cast, alike.events_eq, List.map_append,
    List.map_singleton]

/-- A problem that is the same for both frames is dealt with in the same way. -/
theorem attempt_cast {solves : Region f.size → Bool} {solves' : Region g.size → Bool}
    {message : Region f.size → String} {message' : Region g.size → String}
    {search : SearchChain f → Except Error (Option (Region f.size))}
    {search' : SearchChain g → Except Error (Option (Region g.size))}
    {fail : Synthesis f → Synthesis f} {fail' : Synthesis g → Synthesis g}
    (solved : ∀ r, solves' (r.cast alike.size) = solves r)
    (named : ∀ r, message' (r.cast alike.size) = message r)
    (searched : ∀ chain, search' (chain.cast alike.size) =
      (search chain).map (Option.map (.cast alike.size)))
    (failed : ∀ run, fail' (run.cast alike.size) = (fail run).cast alike.size)
    (run : Synthesis f) : (run.cast alike.size).attempt solves' message' search' fail' =
      carry (cast alike.size) (Stop.cast alike.size) (run.attempt solves message search fail) := by
  rw [attempt, attempt, countProblem_cast]
  cases run.countProblem with
  | error stop => rfl
  | ok counted =>
    simp only [carry, bind, Except.bind, regions_cast, chain_cast, List.find?_map, searched, failed,
      afterFailure_cast, Function.comp_def, solved]
    cases counted.regions.find? solves with
    | some r =>
      simp only [Option.map_some, named]
      rfl
    | none =>
      cases search counted.chain with
      | error e => rfl
      | ok found =>
        cases found with
        | some r => exact congrArg Except.ok (accept_cast alike counted r)
        | none => rfl

theorem solveEvent_cast (solve : Solver) (run : Synthesis f) (p : State × Event) :
    solveEvent solve (run.cast alike.size) p =
      carry (cast alike.size) (Stop.cast alike.size) (solveEvent solve run p) := by
  rw [solveEvent_eq, solveEvent_eq]
  refine attempt_cast alike (alike.disables_cast · p.1 p.2) (fun r => ?_)
    (SearchChain.disabling_cast alike solve p.1 p.2) (failEvent_cast alike.size · p.1 p.2) run
  simp only [Region.text_cast, alike.events_eq]

theorem solveEvents_cast (solve : Solver) (run : Synthesis f) :
    (run.cast alike.size).solveEvents solve =
      carry (cast alike.size) (Stop.cast alike.size) (run.solveEvents solve) := by
  rw [solveEvents, solveEvents, alike.eventProblems_eq, enter_cast]
  refine (foldlM_lockstep f.eventProblems (run.enter .essp)).resolve_right ?_
  rintro ⟨_, p, _, current, _, _, _, differ⟩
  exact differ (solveEvent_cast alike solve current p)

theorem opening_cast (name : g.graph.name = f.graph.name) :
    opening g c o languageOnly ls = (opening f c o languageOnly ls).cast alike.size := by
  simp only [opening, cast, alike.basis_eq, SearchChain.of_cast alike, name, List.length_map,
    List.map_nil]

end Alike

/-! ### After event separation -/

/-- A loop has ended with a run, at its end or at a failure. -/
def EndsWith (result : Except (Stop f) (Synthesis f)) (run : Synthesis f) : Prop :=
  result = .ok run ∨ result = .error (.quickFail run)

theorem EndsWith.cast {result : Except (Stop f) (Synthesis f)} {same : f.size = g.size}
    {last : Synthesis g} (ends : EndsWith result run)
    (ends' : EndsWith (carry (Synthesis.cast same) (Stop.cast same) result) last) :
    last = run.cast same := by
  rcases ends with rfl | rfl <;> rcases ends' with other | other
  · exact (Except.ok.inj other).symm
  · simp [carry] at other
  · simp [carry] at other
  · exact (Stop.quickFail.inj (Except.error.inj other)).symm

/-- What every step keeps is kept by a loop, wherever it ends. -/
theorem EndsWith.foldlM {α : Type} {step : Synthesis f → α → Except (Stop f) (Synthesis f)}
    {P : Synthesis f → Prop} {xs : List α} (ends : EndsWith (xs.foldlM step run) run')
    (each : ∀ a current next, P current → EndsWith (step current a) next → P next)
    (start : P run) : P run' := by
  have keeps (a : α) (_ : a ∈ xs) (current next : Synthesis f) (kept : P current)
      (answer : step current a = .ok next) : P next := each a current next kept (.inl answer)
  rcases ends with answer | answer
  · exact foldlM_invariant keeps start answer
  · obtain ⟨a, _, current, kept, last⟩ := foldlM_error keeps start answer
    exact each a current run' kept (.inr last)

theorem attempt_failedEvents {solves : Region f.size → Bool} {message : Region f.size → String}
    {search : SearchChain f → Except Error (Option (Region f.size))}
    {fail : Synthesis f → Synthesis f} (kept : ∀ run, (fail run).failedEvents = run.failedEvents)
    (ends : EndsWith (run.attempt solves message search fail) run') :
    run'.failedEvents = run.failedEvents := by
  rcases ends with answer | answer
  · rcases attempt_cases answer with ⟨_, _, _, rfl⟩ | ⟨_, _, rfl⟩ | ⟨_, _, rfl⟩
    · rfl
    · rfl
    · exact kept run.counted
  · rw [(attempt_quickFail answer).2.2]
    exact kept run.counted

theorem separateStates_failedEvents (ends : EndsWith (run.separateStates solve) run') :
    run'.failedEvents = run.failedEvents := by
  rw [separateStates] at ends
  split at ends
  · rcases ends with answer | answer
    · rw [Except.ok.inj answer]
    · simp at answer
  · refine ends.foldlM (P := fun current => current.failedEvents = run.failedEvents) ?_ rfl
    intro p current next kept ends
    rw [solveStates_eq] at ends
    exact (attempt_failedEvents (fun run => (failStates_frame run _ _).2.2.2.2.1) ends).trans kept

/-- What is reported about events is known once all event separation problems have been gone
through. -/
theorem exists_endsWith_of_run (answer : Synthesis.run solve f c o languageOnly = .ok run) :
    ∃ ls middle, f.locations = .ok ls ∧
      EndsWith ((opening f c o languageOnly ls).solveEvents solve) middle ∧
      run.failedEvents = middle.failedEvents := by
  obtain ⟨_, ls, located, ⟨middle, last, events, states, rfl⟩ | ⟨stopped, result, rfl⟩⟩ :=
    run_cases answer
  · refine ⟨ls, middle, located, .inl events, ?_⟩
    rw [(finish_failures last).1, separateStates_failedEvents (.inl states)]
  · rcases bind_eq_error.1 result with events | ⟨middle, events, states⟩
    · exact ⟨ls, stopped, located, .inr events, rfl⟩
    · have reported : stopped.failedEvents = middle.failedEvents :=
        separateStates_failedEvents (.inr states)
      exact ⟨ls, middle, located, .inl events, reported⟩

/-! ### Systems that differ in what cannot be reached -/

theorem failedEvents_of_alike (alike : f.Alike g) (name : g.graph.name = f.graph.name)
    (located : f.locations = .ok ls) (located' : g.locations = .ok ls) {last : Synthesis g}
    (answer : Synthesis.run solve f c o languageOnly = .ok run)
    (answer' : Synthesis.run solve g c o languageOnly = .ok last) :
    last.failedEvents = run.failedEvents := by
  obtain ⟨_, middle, found, ends, reported⟩ := exists_endsWith_of_run answer
  obtain rfl := Except.ok.inj (located.symm.trans found)
  obtain ⟨_, middle', found', ends', reported'⟩ := exists_endsWith_of_run answer'
  obtain rfl := Except.ok.inj (located'.symm.trans found')
  rw [opening_cast alike name, solveEvents_cast alike] at ends'
  rw [reported, reported', ends.cast ends', failedEvents_cast]

/-- What cannot be reached has no part in event separation. Deterministic systems without locations
that differ in nothing else have the same region basis. With the same solver the searches have the
same answers and the same events fail in the same states, and the same regions are kept of any. -/
theorem unreachable_irrelevant {ts ts' : TransitionSystem} (wf : ts.WellFormed)
    (wf' : ts'.WellFormed) (det : ts.isDeterministic = true) (det' : ts'.isDeterministic = true)
    (nowhere : ∀ a ∈ ts.arcs, a.location = none) (nowhere' : ∀ a ∈ ts'.arcs, a.location = none)
    (same : ts.SameReachable ts') (framed : Frame.ofSystem ts = .ok f)
    (framed' : Frame.ofSystem ts' = .ok g) :
    ∃ size : f.size = g.size, g.basis = f.basis.map (.cast size) ∧
      (∃ ls, f.locations = .ok ls ∧ g.locations = .ok ls ∧ ∀ solve c o,
        (∀ s e, (SearchChain.of g g.basis c ls o).disabling solve s e =
          ((SearchChain.of f f.basis c ls o).disabling solve s e).map (Option.map (.cast size))) ∧
        ∀ s t, (SearchChain.of g g.basis c ls o).separating solve s t =
          ((SearchChain.of f f.basis c ls o).separating solve s t).map
            (Option.map (.cast size))) ∧
      (∀ solve c o languageOnly,
        (∀ run run', Synthesis.run solve f c o languageOnly = .ok run →
          Synthesis.run solve g c o languageOnly = .ok run' →
            run'.failedEvents = run.failedEvents) ∧
        (ts.initial.isSome = true → c.Convertible o.weightLimit → o.budget = none →
          ∃ run run', Synthesis.run solve f c o languageOnly = .ok run ∧
            Synthesis.run solve g c o languageOnly = .ok run')) ∧
      ∀ regions stateSeparation, g.minimize (regions.map (.cast size)) stateSeparation =
        (f.minimize regions stateSeparation).map (.cast size) := by
  have alike := same.alike wf wf' framed framed'
  obtain ⟨rfl, rooted⟩ := rooted_of_ofSystem framed wf
  obtain ⟨rfl, rooted'⟩ := rooted_of_ofSystem framed' wf'
  have located := Frame.locations_of_unlocated nowhere
  have located' := Frame.locations_of_unlocated nowhere'
  rw [← alike.size] at located'
  refine ⟨alike.size, alike.basis_eq, ⟨_, located, located', fun solve c o => ?_⟩,
    fun solve c o languageOnly => ⟨fun run run' answer answer' => ?_,
      fun initial convertible budget => ?_⟩,
    alike.minimize_cast⟩
  · rw [alike.basis_eq, SearchChain.of_cast alike]
    exact ⟨fun s e => SearchChain.disabling_cast alike solve s e _,
      fun s t => SearchChain.separating_cast alike solve s t _⟩
  · exact failedEvents_of_alike alike same.name located located' answer answer'
  · obtain ⟨root, initial⟩ := Option.isSome_iff_exists.1 initial
    have initial' := same.initial.trans initial
    obtain ⟨run, answer⟩ : ∃ run, Synthesis.run solve f c o languageOnly = .ok run :=
      run_total (rooted root initial) initial det located convertible budget
    obtain ⟨run', answer'⟩ : ∃ run, Synthesis.run solve g c o languageOnly = .ok run :=
      run_total (rooted' root initial') initial' det' located' convertible budget
    exact ⟨run, run', answer, answer'⟩

/-- The two states of `toggle`, and one before them that only leads to them. -/
def crowdedToggle : TransitionSystem :=
  let up : Arc := ⟨"off", "up", "on", none⟩
  let down : Arc := ⟨"on", "down", "off", none⟩
  let stray : Arc := ⟨"spare", "down", "on", none⟩
  { initial := some "off"
    incidences := [⟨"spare", [stray], []⟩, ⟨"off", [up], [down]⟩, ⟨"on", [down], [stray, up]⟩]
    arcs := [stray, up, down]
    alphabet := ["down", "up"] }

def crowdedFrame : Frame := ⟨⟨crowdedToggle, some "off", .forward, by decide, _, rfl⟩, rfl, _, rfl⟩

theorem sameReachable_crowdedToggle : toggle.SameReachable crowdedToggle := by
  constructor <;> decide

/-- The state that cannot be reached has an arc with a label that is used elsewhere. -/
theorem unreachable_irrelevant_crowdedToggle :
    ∃ size : toggleFrame.size = crowdedFrame.size,
      crowdedFrame.basis = toggleFrame.basis.map (.cast size) ∧
        ∃ run run', Synthesis.run .best toggleFrame = .ok run ∧
          Synthesis.run .best crowdedFrame = .ok run' ∧ run'.failedEvents = run.failedEvents := by
  have wf : crowdedToggle.WellFormed := by constructor <;> decide
  obtain ⟨size, basis, _, runs, _⟩ := unreachable_irrelevant toggle_wellFormed wf (by decide)
    (by decide) (by decide) (by decide) sameReachable_crowdedToggle
    (show Frame.ofSystem toggle = .ok toggleFrame from rfl)
    (show Frame.ofSystem crowdedToggle = .ok crowdedFrame from rfl)
  obtain ⟨reported, total⟩ := runs .best .all {} false
  obtain ⟨run, run', answer, answer'⟩ := total rfl all_representable.convertible rfl
  exact ⟨size, basis, run, run', answer, answer', reported run run' answer answer'⟩

end Synthesis

end NetSynthesis
