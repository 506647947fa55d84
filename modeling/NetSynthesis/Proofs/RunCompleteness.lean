import NetSynthesis.Proofs.SearchCompleteness
import NetSynthesis.Proofs.SynthesisRun

/-! Runs that have a result, and runs that succeed. Without a budget nothing but a failure ends a
run. If every problem has a solution among the regions that the searches may answer with, no problem
fails, whatever was found before, and the run succeeds. -/
namespace NetSynthesis.Synthesis

open NetSynthesis.Frame

variable {f : Frame} {root : State} {solve : Solver} {c : NetClass} {ls : Locations} {o : Options}
  {languageOnly : Bool} {run : Synthesis f} {s t : State} {e : Event} {r : Region f.size}

/-! ### Runs without a budget -/

theorem start_of_located (located : f.locations = .ok ls) (initial : f.graph.initial = some root)
    (deterministic : f.graph.isDeterministic = true) :
    start f c o languageOnly = .ok (opening f c o languageOnly ls) :=
  start_eq_ok.2 ⟨by simp [TransitionSystem.checkInitial, initial],
    TransitionSystem.checkDeterministic_eq_ok.2 deterministic, ls, located, rfl⟩

section Stops

variable {stop : Stop f} (sound : Sound c ls o run) (budget : o.budget = none)

include sound budget

theorem Sound.attempt_stops {solves : Region f.size → Bool} {message : Region f.size → String}
    {search : SearchChain f → Except Error (Option (Region f.size))}
    {fail : Synthesis f → Synthesis f} (kept : (fail run.counted).options = run.options)
    (total : ∃ answer, search (.of f f.basis c ls o) = .ok answer)
    (answer : run.attempt solves message search fail = .error stop) :
    o.quickFail = true ∧ ∃ stopped, stop = .quickFail stopped := by
  obtain ⟨found, searched⟩ := total
  rw [attempt_of_counted (countProblem_of_lt (by simp [sound.options, budget])), sound.chain,
    searched] at answer
  split at answer
  · simp at answer
  cases found with
  | some r => simp at answer
  | none =>
    simp only [afterFailure, kept, sound.options] at answer
    split at answer
    · rename_i quick
      exact ⟨quick, _, (Except.error.inj answer).symm⟩
    · simp at answer

variable (rooted : f.Rooted root) (located : f.locations = .ok ls)
  (convertible : c.Convertible o.weightLimit)

include rooted located convertible

theorem Sound.solveEvents_stops (answer : run.solveEvents solve = .error stop) :
    o.quickFail = true ∧ ∃ stopped, stop = .quickFail stopped := by
  obtain ⟨⟨s, e⟩, member, current, sound, failed⟩ := foldlM_error (I := Sound c ls o)
    (fun _ _ _ _ sound answer => (Sound.solveEvent rooted sound answer).1)
    (sound.enter .essp).1 answer
  obtain ⟨_, known, _⟩ := mem_eventProblems.1 member
  rw [solveEvent_eq] at failed
  exact sound.attempt_stops budget rfl
    (SearchChain.disabling_total rooted located convertible known s) failed

theorem Sound.separateStates_stops (answer : run.separateStates solve = .error stop) :
    o.quickFail = true ∧ ∃ stopped, stop = .quickFail stopped := by
  rw [Synthesis.separateStates] at answer
  split at answer
  · simp at answer
  · obtain ⟨⟨s, t⟩, _, current, sound, failed⟩ := foldlM_error (I := Sound c ls o)
      (fun _ _ _ _ sound answer => (Sound.solveStates rooted sound answer).1)
      (sound.enter .ssp).1 answer
    rw [solveStates_eq] at failed
    exact sound.attempt_stops budget (failStates_frame _ s t).2.2.2.1
      (SearchChain.separating_total located convertible s t) failed

theorem Sound.stops
    (answer : (run.solveEvents solve).bind (Synthesis.separateStates solve) = .error stop) :
    o.quickFail = true ∧ ∃ stopped, stop = .quickFail stopped := by
  rcases bind_eq_error.1 answer with events | ⟨middle, events, states⟩
  · exact sound.solveEvents_stops budget rooted located convertible events
  · exact (sound.solveEvents rooted events).1.separateStates_stops budget rooted located convertible
      states

end Stops

/-- A run without a budget has a result, whatever the solver, if programs can be written at
all. -/
theorem run_total (rooted : f.Rooted root) (initial : f.graph.initial = some root)
    (deterministic : f.graph.isDeterministic = true) (located : f.locations = .ok ls)
    (convertible : c.Convertible o.weightLimit) (budget : o.budget = none) :
    ∃ run, Synthesis.run solve f c o languageOnly = .ok run := by
  have begun : start f c o languageOnly = .ok (opening f c o languageOnly ls) :=
    start_of_located located initial deterministic
  have opened := sound_opening f c o languageOnly ls
  cases result : ((opening f c o languageOnly ls).solveEvents solve).bind
      (separateStates solve) with
  | ok last => exact ⟨_, run_of_finished begun result⟩
  | error stop =>
    obtain ⟨_, stopped, rfl⟩ := opened.stops budget rooted located convertible result
    exact ⟨_, run_of_stopped begun result⟩

/-- A bound beyond double precision ends a run at the first event to be disabled, if plain regions
are not asked for. -/
theorem run_overflow (rooted : f.Rooted root) (initial : f.graph.initial = some root)
    (deterministic : f.graph.isDeterministic = true) (located : f.locations = .ok ls)
    (bounded : c.bound ≠ none) (plain : c.plain = false) (beyond : ¬ c.Convertible o.weightLimit)
    (budget : o.budget = none) (some : f.eventProblems ≠ []) : ∃ notices,
      Synthesis.run solve f c o languageOnly = .error ⟨.doubleOverflow, notices⟩ := by
  obtain ⟨⟨s, e⟩, rest, problems⟩ := List.exists_cons_of_ne_nil some
  obtain ⟨found, known, _⟩ := mem_eventProblems.1 (problems ▸ List.mem_cons_self)
  have begun : start f c o languageOnly = .ok (opening f c o languageOnly ls) :=
    start_of_located located initial deterministic
  have search : (SearchChain.of f f.basis c ls o).disabling solve s e = .error .doubleOverflow :=
    SearchChain.disabling_overflow rooted located
      (fun _ => Strategy.eq_inequality bounded plain) beyond known found
  have events : ∃ stopped, (opening f c o languageOnly ls).solveEvents solve =
      .error (.error .doubleOverflow stopped) := by
    have counting : ((opening f c o languageOnly ls).enter .essp).countProblem =
        .ok ((opening f c o languageOnly ls).enter .essp).counted :=
      countProblem_of_lt fun k given => by simp [opening, enter, notify, budget] at given
    have chain : ((opening f c o languageOnly ls).enter .essp).chain = .of f f.basis c ls o := rfl
    have regions : ((opening f c o languageOnly ls).enter .essp).regions = [] := rfl
    rw [Synthesis.solveEvents, problems, List.foldlM_cons, solveEvent_eq,
      attempt_of_counted counting, regions, chain, List.find?_nil, search]
    exact ⟨_, rfl⟩
  obtain ⟨stopped, events⟩ := events
  exact ⟨_, run_of_error begun (bind_eq_error.2 (.inl events))⟩

def vast : NetClass where
  bound := some (Nat.pow 10 400)
  bound_pos := by rintro _ ⟨⟩; decide +kernel

theorem not_convertible_vast {limit : Nat} : ¬ vast.Convertible limit := by
  intro convertible
  have small := (NetClass.convertible_iff.1 convertible).1 (Nat.pow 10 400) rfl
  exact absurd small (by decide +kernel)

theorem run_vast (rooted : f.Rooted root) (initial : f.graph.initial = some root)
    (deterministic : f.graph.isDeterministic = true) (located : f.locations = .ok ls)
    (budget : o.budget = none) (some : f.eventProblems ≠ []) :
    ¬ ∃ run, Synthesis.run solve f vast o languageOnly = .ok run := by
  obtain ⟨notices, failed⟩ : ∃ notices,
      Synthesis.run solve f vast o languageOnly = .error ⟨.doubleOverflow, notices⟩ :=
    run_overflow rooted initial deterministic located (Option.some_ne_none _) rfl
      not_convertible_vast budget some
  simp [failed]

/-! ### Runs without failures -/

/-- A run without failures so far. -/
structure Clean (c : NetClass) (ls : Locations) (o : Options) (languageOnly : Bool)
    (run : Synthesis f) : Prop where
  chain : run.chain = .of f f.basis c ls o
  options : run.options = o
  goal : run.languageOnly = languageOnly
  events : run.failedEvents = []
  states : run.failedStates = {}

theorem Clean.succeeded (clean : Clean c ls o languageOnly run) : run.succeeded = true := by
  have groups : run.failedStateGroups = [] := by
    rw [failedStateGroups, clean.states]; rfl
  simp [Synthesis.succeeded, clean.events, groups]

theorem Clean.notify (clean : Clean c ls o languageOnly run) (kind : Notice.Kind)
    (message : String) : Clean c ls o languageOnly (run.notify kind message) :=
  ⟨clean.chain, clean.options, clean.goal, clean.events, clean.states⟩

theorem Clean.enter (clean : Clean c ls o languageOnly run) (p : Phase) :
    Clean c ls o languageOnly (run.enter p) :=
  ⟨clean.chain, clean.options, clean.goal, clean.events, clean.states⟩

theorem Clean.counted (clean : Clean c ls o languageOnly run) :
    Clean c ls o languageOnly run.counted :=
  ⟨clean.chain, clean.options, clean.goal, clean.events, clean.states⟩

theorem Clean.accept (clean : Clean c ls o languageOnly run) (r : Region f.size) :
    Clean c ls o languageOnly (run.accept r) :=
  ⟨clean.chain, clean.options, clean.goal, clean.events, clean.states⟩

/-- A problem that the searches solve is no failure. -/
theorem Clean.attempt (clean : Clean c ls o languageOnly run) (budget : o.budget = none)
    {solves : Region f.size → Bool} {message : Region f.size → String}
    {search : SearchChain f → Except Error (Option (Region f.size))}
    {fail : Synthesis f → Synthesis f}
    (found : ∃ q, search (.of f f.basis c ls o) = .ok (some q)) :
    ∃ run', run.attempt solves message search fail = .ok run' ∧
      Clean c ls o languageOnly run' := by
  obtain ⟨q, found⟩ := found
  rw [attempt_of_counted (countProblem_of_lt (by simp [clean.options, budget])), clean.chain, found]
  split
  · exact ⟨_, rfl, clean.counted.notify _ _⟩
  · exact ⟨_, rfl, clean.counted.accept q⟩

/-- Every problem is solved by a region that the searches are complete for. -/
structure Solvable (f : Frame) (c : NetClass) (ls : Locations) (limit : Nat) (languageOnly : Bool) :
    Prop where
  events : ∀ s e, f.isReachable s = true → e ∈ f.events → (∀ a ∈ f.graph.outgoing s, a.label ≠ e) →
    ∃ r, f.Eligible c ls limit r ∧ f.disables r s e = true
  states : languageOnly = false → ∀ s t, f.isReachable s = true → f.isReachable t = true → s ≠ t →
    ∃ r, f.Eligible c ls limit r ∧ f.separates r s t = true
  reachable : languageOnly = false → ∀ s ∈ f.graph.states, f.isReachable s = true

/-- Every problem is solved by a region that some search may answer with. -/
structure Answerable (f : Frame) (c : NetClass) (ls : Locations) (o : Options)
    (languageOnly : Bool) : Prop where
  events : ∀ s e, f.isReachable s = true → e ∈ f.events → (∀ a ∈ f.graph.outgoing s, a.label ≠ e) →
    ∃ r, f.Obtainable c ls o r ∧ f.disables r s e = true
  states : languageOnly = false → ∀ s t, f.isReachable s = true → f.isReachable t = true → s ≠ t →
    ∃ r, f.Obtainable c ls o r ∧ f.separates r s t = true
  reachable : languageOnly = false → ∀ s ∈ f.graph.states, f.isReachable s = true

theorem Solvable.answerable (solvable : Solvable f c ls o.weightLimit languageOnly)
    (representable : c.Representable o.weightLimit) : Answerable f c ls o languageOnly := by
  refine ⟨fun s e found known none => ?_, fun both s t hs ht differ => ?_, solvable.reachable⟩
  · obtain ⟨r, eligible, disables⟩ := solvable.events s e found known none
    exact ⟨r, eligible.obtainable representable, disables⟩
  · obtain ⟨r, eligible, separates⟩ := solvable.states both s t hs ht differ
    exact ⟨r, eligible.obtainable representable, separates⟩

theorem exists_run_of_answerable (rooted : f.Rooted root) (located : f.locations = .ok ls)
    (exactly : solve.Exact) (representable : c.Representable o.weightLimit)
    (budget : o.budget = none) (initial : f.graph.initial = some root)
    (deterministic : f.graph.isDeterministic = true)
    (answerable : Answerable f c ls o languageOnly) :
    ∃ run, Synthesis.run solve f c o languageOnly = .ok run ∧ run.succeeded = true := by
  have clean : Clean c ls o languageOnly (opening f c o languageOnly ls) :=
    ⟨rfl, rfl, rfl, rfl, rfl⟩
  obtain ⟨middle, events, clean⟩ : ∃ middle, (opening f c o languageOnly ls).solveEvents solve =
      .ok middle ∧ Clean c ls o languageOnly middle := by
    refine foldlM_total (I := Clean c ls o languageOnly) ?_ (clean.enter .essp)
    rintro ⟨s, e⟩ member run clean
    obtain ⟨found, known, disabled⟩ := mem_eventProblems.1 member
    obtain ⟨r, obtainable, disables⟩ :=
      answerable.events s e found known (isDisabled_iff.1 disabled)
    rw [solveEvent_eq]
    exact clean.attempt budget
      (SearchChain.disabling_complete rooted located exactly representable known obtainable
        disables)
  obtain ⟨last, states, clean⟩ : ∃ last, middle.separateStates solve = .ok last ∧
      Clean c ls o languageOnly last := by
    rw [separateStates]
    split
    · exact ⟨middle, rfl, clean⟩
    rename_i both
    rw [clean.goal, Bool.not_eq_true] at both
    refine foldlM_total (I := Clean c ls o languageOnly) ?_ (clean.enter .ssp)
    rintro ⟨s, t⟩ member run clean
    obtain ⟨differ, ⟨known, off⟩ | ⟨hs, ht⟩⟩ := rooted.of_mem_statePairs member
    · simp [answerable.reachable both s known] at off
    obtain ⟨r, obtainable, separates⟩ := answerable.states both s t hs ht differ
    rw [solveStates_eq]
    exact clean.attempt budget
      (SearchChain.separating_complete rooted located exactly representable obtainable separates)
  have finished : ((opening f c o languageOnly ls).solveEvents solve).bind
      (separateStates solve) = .ok last := bind_eq_ok.2 ⟨middle, events, states⟩
  exact ⟨last.finish, run_of_finished (start_of_located located initial deterministic) finished,
    (finish_frame last).2.trans clean.succeeded⟩

/-- Where all problems can be solved a run succeeds. -/
theorem exists_run (rooted : f.Rooted root) (located : f.locations = .ok ls) (exactly : solve.Exact)
    (representable : c.Representable o.weightLimit) (budget : o.budget = none)
    (initial : f.graph.initial = some root) (deterministic : f.graph.isDeterministic = true)
    (solvable : Solvable f c ls o.weightLimit languageOnly) :
    ∃ run, Synthesis.run solve f c o languageOnly = .ok run ∧ run.succeeded = true :=
  exists_run_of_answerable rooted located exactly representable budget initial deterministic
    (solvable.answerable representable)

end NetSynthesis.Synthesis
