import NetSynthesis.Proofs.SearchAnswers
import NetSynthesis.Proofs.SynthesisRun

/-! What runs gather. Every region of a run is one that a strategy in use may answer with, and a
problem is recorded as failed just where the searches answered with none. -/
namespace NetSynthesis.Synthesis

variable {f : Frame} {root : State} {solve : Solver} {c : NetClass} {ls : Locations} {o : Options}
  {languageOnly : Bool} {run run' : Synthesis f} {s t : State} {e : Event}

/-- A run is for what was asked, its searches are those of the frame, and its regions are among
their answers. -/
structure Gathered (c : NetClass) (ls : Locations) (o : Options) (languageOnly : Bool)
    (run : Synthesis f) : Prop where
  chain : run.chain = .of f f.basis c ls o
  options : run.options = o
  languageOnly : run.languageOnly = languageOnly
  goal : run.goal = c
  locations : run.locations = ls
  obtainable : ∀ r ∈ run.regions, f.Obtainable c ls o r

namespace Gathered

theorem notify (gathered : Gathered c ls o languageOnly run) (kind : Notice.Kind)
    (message : String) : Gathered c ls o languageOnly (run.notify kind message) :=
  ⟨gathered.chain, gathered.options, gathered.languageOnly, gathered.goal, gathered.locations,
    gathered.obtainable⟩

theorem enter (gathered : Gathered c ls o languageOnly run) (p : Phase) :
    Gathered c ls o languageOnly (run.enter p) :=
  ⟨gathered.chain, gathered.options, gathered.languageOnly, gathered.goal, gathered.locations,
    gathered.obtainable⟩

theorem accept (gathered : Gathered c ls o languageOnly run) {r : Region f.size}
    (obtainable : f.Obtainable c ls o r) : Gathered c ls o languageOnly (run.accept r) := by
  refine ⟨gathered.chain, gathered.options, gathered.languageOnly, gathered.goal,
    gathered.locations, fun q member => ?_⟩
  rcases List.mem_append.1 (show q ∈ run.regions ++ [r] from member) with old | new
  · exact gathered.obtainable q old
  · rw [List.mem_singleton.1 new]
    exact obtainable

theorem finish (gathered : Gathered c ls o languageOnly run) :
    Gathered c ls o languageOnly run.finish := by
  refine ⟨gathered.chain, gathered.options, gathered.languageOnly, gathered.goal,
    gathered.locations, fun r member => ?_⟩
  rw [(finish_frame run).1] at member
  exact gathered.obtainable r (Frame.mem_of_mem_minimize member)

end Gathered

theorem gathered_opening (f : Frame) (c : NetClass) (o : Options) (languageOnly : Bool)
    (ls : Locations) : Gathered c ls o languageOnly (opening f c o languageOnly ls) :=
  ⟨rfl, rfl, rfl, rfl, rfl, by simp [opening]⟩

/-! ### Failures -/

/-- The same regions are searched for and have been found. -/
def SameSearch (run run' : Synthesis f) : Prop :=
  run'.chain = run.chain ∧ run'.options = run.options ∧ run'.languageOnly = run.languageOnly ∧
    run'.goal = run.goal ∧ run'.locations = run.locations ∧ run'.regions = run.regions

theorem SameSearch.gathered (same : SameSearch run run')
    (gathered : Gathered c ls o languageOnly run) : Gathered c ls o languageOnly run' := by
  obtain ⟨chain, options, languageOnly, goal, locations, regions⟩ := same
  exact ⟨chain.trans gathered.chain, options.trans gathered.options,
    languageOnly.trans gathered.languageOnly, goal.trans gathered.goal,
    locations.trans gathered.locations, by rw [regions]; exact gathered.obtainable⟩

theorem sameSearch_failEvent (run : Synthesis f) (s : State) (e : Event) :
    SameSearch run (run.failEvent s e) := ⟨rfl, rfl, rfl, rfl, rfl, rfl⟩

theorem sameSearch_failStates (run : Synthesis f) (s t : State) :
    SameSearch run (run.failStates s t) := by
  obtain ⟨regions, chain, languageOnly, options, _, goal, locations⟩ := failStates_frame run s t
  exact ⟨chain, options, languageOnly, goal, locations, regions⟩

/-! ### One problem -/

section Attempt

variable {solves : Region f.size → Bool} {message : Region f.size → String}
  {search : SearchChain f → Except Error (Option (Region f.size))}
  {fail : Synthesis f → Synthesis f} (gathered : Gathered c ls o languageOnly run)

include gathered

theorem Gathered.counted : Gathered c ls o languageOnly run.counted :=
  ⟨gathered.chain, gathered.options, gathered.languageOnly, gathered.goal, gathered.locations,
    gathered.obtainable⟩

/-- A problem is solved by a region that is there at last, or its failure is recorded. -/
theorem Gathered.attempt (failing : ∀ run : Synthesis f, SameSearch run (fail run))
    (searched : ∀ r, search (.of f f.basis c ls o) = .ok (some r) →
      f.Obtainable c ls o r ∧ solves r = true)
    (answer : run.attempt solves message search fail = .ok run') :
    Gathered c ls o languageOnly run' ∧
      (((∃ r, f.Obtainable c ls o r ∧ solves r = true) ∧
          run'.failedEvents = run.failedEvents ∧ run'.failedStates = run.failedStates) ∨
        (search (.of f f.basis c ls o) = .ok none ∧ o.quickFail = false ∧
          run' = fail run.counted)) := by
  rcases attempt_cases answer with ⟨r, member, good, rfl⟩ | ⟨r, found, rfl⟩ | ⟨none, patient, rfl⟩
  · exact ⟨gathered.counted.notify _ _, .inl ⟨⟨r, gathered.obtainable r member, good⟩, rfl, rfl⟩⟩
  · rw [gathered.chain] at found
    obtain ⟨obtainable, good⟩ := searched r found
    exact ⟨gathered.counted.accept obtainable, .inl ⟨⟨r, obtainable, good⟩, rfl, rfl⟩⟩
  · have failed := (failing run.counted).gathered gathered.counted
    rw [gathered.chain] at none
    rw [failed.options] at patient
    exact ⟨failed, .inr ⟨none, patient, rfl⟩⟩

/-- A run stops at a problem only where the search answers with none. -/
theorem Gathered.attempt_quickFail (failing : ∀ run : Synthesis f, SameSearch run (fail run))
    (answer : run.attempt solves message search fail = .error (.quickFail run')) :
    Gathered c ls o languageOnly run' ∧ o.quickFail = true ∧
      search (.of f f.basis c ls o) = .ok none ∧ run' = fail run.counted := by
  obtain ⟨none, quick, rfl⟩ := Synthesis.attempt_quickFail answer
  have failed := (failing run.counted).gathered gathered.counted
  rw [gathered.chain] at none
  rw [failed.options] at quick
  exact ⟨failed, quick, none, rfl⟩

end Attempt

/-! ### Steps -/

section Steps

variable (rooted : f.Rooted root) (inRange : solve.InRange)
  (gathered : Gathered c ls o languageOnly run)

include rooted inRange gathered

theorem Gathered.solveEvent (answer : solveEvent solve run (s, e) = .ok run') :
    Gathered c ls o languageOnly run' ∧ run'.failedStates = run.failedStates ∧
      (((∃ r, f.Obtainable c ls o r ∧ f.disables r s e = true) ∧
          run'.failedEvents = run.failedEvents) ∨
        ((SearchChain.of f f.basis c ls o).disabling solve s e = .ok none ∧
          o.quickFail = false ∧ run'.failedEvents = addState e s run.failedEvents)) := by
  rw [solveEvent_eq] at answer
  obtain ⟨kept, ⟨solved, events, states⟩ | ⟨none, patient, rfl⟩⟩ := gathered.attempt
    (fun run => sameSearch_failEvent run s e)
    (fun r found => ⟨SearchChain.obtainable_of_disabling inRange found,
      (SearchChain.disabling_sound rooted found).2⟩) answer
  · exact ⟨kept, states, .inl ⟨solved, events⟩⟩
  · exact ⟨kept, rfl, .inr ⟨none, patient, rfl⟩⟩

theorem Gathered.solveStates (answer : solveStates solve run (s, t) = .ok run') :
    Gathered c ls o languageOnly run' ∧ run'.failedEvents = run.failedEvents ∧
      (((∃ r, f.Obtainable c ls o r ∧ f.separates r s t = true) ∧
          run'.failedStates = run.failedStates) ∨
        ((SearchChain.of f f.basis c ls o).separating solve s t = .ok none ∧
          o.quickFail = false ∧ run'.failedStates = (run.failedStates.join s t).2)) := by
  rw [solveStates_eq] at answer
  obtain ⟨kept, ⟨solved, events, states⟩ | ⟨none, patient, rfl⟩⟩ := gathered.attempt
    (fun run => sameSearch_failStates run s t)
    (fun r found => ⟨SearchChain.obtainable_of_separating inRange found,
      (SearchChain.separating_sound rooted found).2⟩) answer
  · exact ⟨kept, events, .inl ⟨solved, states⟩⟩
  · obtain ⟨_, _, _, _, events, _⟩ := failStates_frame run.counted s t
    have counted : run.counted.failedStates = run.failedStates := rfl
    exact ⟨kept, events, .inr ⟨none, patient, by rw [failedStates_failStates, counted]⟩⟩

omit gathered in
/-- Looking at an event joins no states. -/
theorem Gathered.solveEvent_unjoined {d : DisjointSets State}
    (kept : Gathered c ls o languageOnly run ∧ run.failedStates = d)
    (answer : Synthesis.solveEvent solve run (s, e) = .ok run') :
    Gathered c ls o languageOnly run' ∧ run'.failedStates = d := by
  obtain ⟨gathered, states, _⟩ := kept.1.solveEvent rooted inRange answer
  exact ⟨gathered, states.trans kept.2⟩

omit gathered in
theorem Gathered.solveStates_unjoined {d : DisjointSets State}
    (kept : Gathered c ls o languageOnly run ∧ (o.quickFail = true → run.failedStates = d))
    (answer : Synthesis.solveStates solve run (s, t) = .ok run') :
    Gathered c ls o languageOnly run' ∧ (o.quickFail = true → run'.failedStates = d) := by
  obtain ⟨gathered, _, ⟨_, states⟩ | ⟨_, patient, _⟩⟩ := kept.1.solveStates rooted inRange answer
  · exact ⟨gathered, fun quick => states.trans (kept.2 quick)⟩
  · exact ⟨gathered, fun quick => absurd (patient.symm.trans quick) Bool.false_ne_true⟩

theorem Gathered.solveEvents (answer : run.solveEvents solve = .ok run') :
    Gathered c ls o languageOnly run' ∧ run'.failedStates = run.failedStates :=
  foldlM_invariant (I := fun current => Gathered c ls o languageOnly current ∧
      current.failedStates = run.failedStates)
    (fun _ _ _ _ kept answer => solveEvent_unjoined rooted inRange kept answer)
    ⟨gathered.enter .essp, rfl⟩ answer

theorem Gathered.separateStates (answer : run.separateStates solve = .ok run') :
    Gathered c ls o languageOnly run' ∧
      (o.quickFail = true → run'.failedStates = run.failedStates) := by
  rw [Synthesis.separateStates] at answer
  split at answer
  · obtain rfl := Except.ok.inj answer
    exact ⟨gathered, fun _ => rfl⟩
  · exact foldlM_invariant (I := fun current => Gathered c ls o languageOnly current ∧
        (o.quickFail = true → current.failedStates = run.failedStates))
      (fun _ _ _ _ kept answer => solveStates_unjoined rooted inRange kept answer)
      ⟨gathered.enter .ssp, fun _ => rfl⟩ answer

/-- A run that stops has joined the last two states that it looked at, if any. -/
theorem Gathered.stopped (answer : (run.solveEvents solve).bind (Synthesis.separateStates solve) =
      .error (.quickFail run')) :
    Gathered c ls o languageOnly run' ∧ o.quickFail = true ∧
      (run'.failedStates = run.failedStates ∨
        ∃ s t, (SearchChain.of f f.basis c ls o).separating solve s t = .ok none ∧
          run'.failedStates = (run.failedStates.join s t).2) := by
  rcases bind_eq_error.1 answer with events | ⟨middle, events, states⟩
  · obtain ⟨p, _, current, ⟨kept, same⟩, last⟩ := foldlM_error
      (I := fun current => Gathered c ls o languageOnly current ∧
        current.failedStates = run.failedStates)
      (fun _ _ _ _ kept answer => solveEvent_unjoined rooted inRange kept answer)
      ⟨gathered.enter .essp, rfl⟩ events
    rw [solveEvent_eq] at last
    obtain ⟨kept, quick, _, rfl⟩ :=
      kept.attempt_quickFail (fun run => sameSearch_failEvent run p.1 p.2) last
    exact ⟨kept, quick, .inl same⟩
  · obtain ⟨gathered, before⟩ := gathered.solveEvents rooted inRange events
    rw [Synthesis.separateStates] at states
    split at states
    · simp at states
    obtain ⟨p, _, current, ⟨kept, same⟩, last⟩ := foldlM_error
      (I := fun current => Gathered c ls o languageOnly current ∧
        (o.quickFail = true → current.failedStates = run.failedStates))
      (fun _ _ _ _ kept answer => solveStates_unjoined rooted inRange kept answer)
      ⟨gathered.enter .ssp, fun _ => before⟩ states
    rw [solveStates_eq] at last
    obtain ⟨kept, quick, none, rfl⟩ :=
      kept.attempt_quickFail (fun run => sameSearch_failStates run p.1 p.2) last
    have counted : current.counted.failedStates = run.failedStates := same quick
    exact ⟨kept, quick, .inr ⟨p.1, p.2, none, by rw [failedStates_failStates, counted]⟩⟩

end Steps

/-- All regions of a run are among the answers that its searches may give. -/
theorem gathered_of_run (rooted : f.Rooted root) (inRange : solve.InRange)
    (answer : Synthesis.run solve f c o languageOnly = .ok run) :
    ∃ ls, f.locations = .ok ls ∧ Gathered c ls o languageOnly run := by
  obtain ⟨_, ls, located, cases⟩ := run_cases answer
  have opened := gathered_opening f c o languageOnly ls
  refine ⟨ls, located, ?_⟩
  rcases cases with ⟨middle, last, events, states, rfl⟩ | ⟨stopped, result, rfl⟩
  · have middle := (opened.solveEvents rooted inRange events).1
    exact (middle.separateStates rooted inRange states).1.finish
  · exact (opened.stopped rooted inRange result).1.enter .failed

end NetSynthesis.Synthesis
