import NetSynthesis.Proofs.FailedGroups

/-! No problem gets lost. A run that goes through all problems reports those that its regions do
not solve, whatever the solver has answered, and whether or not some problem has failed. -/
namespace NetSynthesis.Synthesis

variable {f : Frame} {root : State} {solve : Solver} {c : NetClass} {ls : Locations} {o : Options}
  {languageOnly : Bool} {run run' : Synthesis f} {s t : State} {e : Event}

/-! ### Phases -/

section Attempt

variable {solves : Region f.size → Bool} {message : Region f.size → String}
  {search : SearchChain f → Except Error (Option (Region f.size))}
  {fail : Synthesis f → Synthesis f}

theorem attempt_monitor (failing : ∀ run : Synthesis f, (fail run).monitor = run.monitor)
    (answer : run.attempt solves message search fail = .ok run') :
    run'.monitor = run.monitor := by
  rcases attempt_cases answer with ⟨r, _, _, rfl⟩ | ⟨r, _, rfl⟩ | ⟨_, _, rfl⟩
  · rfl
  · rfl
  · exact failing run.counted

theorem attempt_quickFail_monitor
    (failing : ∀ run : Synthesis f, (fail run).monitor = run.monitor)
    (answer : run.attempt solves message search fail = .error (.quickFail run')) :
    run'.monitor = run.monitor := by
  obtain ⟨_, _, rfl⟩ := attempt_quickFail answer
  exact failing run.counted

end Attempt

theorem failEvent_monitor (run : Synthesis f) (s : State) (e : Event) :
    (run.failEvent s e).monitor = run.monitor := rfl

theorem failStates_monitor (run : Synthesis f) (s t : State) :
    (run.failStates s t).monitor = run.monitor := by
  unfold failStates notify
  with_reducible rfl

theorem solveEvent_monitor (answer : solveEvent solve run (s, e) = .ok run') :
    run'.monitor = run.monitor := by
  rw [solveEvent_eq] at answer
  exact attempt_monitor (fun run => failEvent_monitor run s e) answer

theorem solveStates_monitor (answer : solveStates solve run (s, t) = .ok run') :
    run'.monitor = run.monitor := by
  rw [solveStates_eq] at answer
  exact attempt_monitor (fun run => failStates_monitor run s t) answer

theorem solveEvents_monitor (answer : run.solveEvents solve = .ok run') :
    run'.monitor = run.monitor.move .essp :=
  foldlM_invariant (I := fun current => current.monitor = run.monitor.move .essp)
    (fun _ _ _ _ kept answer => (solveEvent_monitor answer).trans kept) rfl answer

/-- A run that stops at a failure has separated events, and maybe begun with the states. -/
theorem monitor_of_stopped (answer : (run.solveEvents solve).bind (separateStates solve) =
      .error (.quickFail run')) :
    run'.monitor = run.monitor.move .essp ∨
      run'.monitor = (run.monitor.move .essp).move .ssp := by
  rcases bind_eq_error.1 answer with events | ⟨middle, events, states⟩
  · obtain ⟨p, _, current, same, last⟩ := foldlM_error
      (I := fun current => current.monitor = run.monitor.move .essp)
      (fun _ _ _ _ kept answer => (solveEvent_monitor answer).trans kept) rfl events
    rw [solveEvent_eq] at last
    have stopped := attempt_quickFail_monitor (fun run => failEvent_monitor run p.1 p.2) last
    exact .inl (stopped.trans same)
  · have before := solveEvents_monitor events
    rw [separateStates] at states
    split at states
    · simp at states
    obtain ⟨p, _, current, same, last⟩ := foldlM_error
      (I := fun current => current.monitor = middle.monitor.move .ssp)
      (fun _ _ _ _ kept answer => (solveStates_monitor answer).trans kept) rfl states
    rw [solveStates_eq] at last
    have stopped := attempt_quickFail_monitor (fun run => failStates_monitor run p.1 p.2) last
    exact .inr (by rw [stopped, same, before])

/-- A run that comes to the choice of regions has gone through all problems. -/
theorem accounted_of_run (rooted : f.Rooted root)
    (answer : Synthesis.run solve f c o languageOnly = .ok run)
    (whole : Phase.minimizing ∈ run.monitor.entered) :
    Accounted run ∧ run.languageOnly = languageOnly := by
  obtain ⟨_, ls, _, cases⟩ := run_cases answer
  rcases cases with ⟨middle, last, events, states, rfl⟩ | ⟨stopped, result, rfl⟩
  · have sound := sound_opening f c o languageOnly ls
    obtain ⟨accounted, goal⟩ := sound.accounted rooted (bind_eq_ok.2 ⟨middle, events, states⟩)
    exact ⟨accounted.finish, goal⟩
  · change Phase.minimizing ∈ (stopped.monitor.move .failed).entered at whole
    rcases monitor_of_stopped result with same | same
    · simp [same, opening, PhaseMonitor.entered, PhaseMonitor.move] at whole
    · simp [same, opening, PhaseMonitor.entered, PhaseMonitor.move] at whole

/-! ### Problems -/

/-- Every event that is disabled in a reachable state is disabled there by a region or reported, and
different states are told apart by a region or reported in one group. -/
structure SolvedOrReported (run : Synthesis f) (root : State) : Prop where
  disabled : ∀ s e, (f.graph.behaviour root).Reaches s → e ∈ f.events →
    (∀ t, ¬ (f.graph.behaviour root).Edge s e t) → ¬ Lists run.failedEvents s e →
    ∃ r ∈ run.regions, f.tokens r s < (f.weightOf r e).backward
  separated : ∀ s ∈ f.graph.states, ∀ t ∈ f.graph.states, s ≠ t →
    (∀ g ∈ run.failedStateGroups, ¬ (s ∈ g ∧ t ∈ g)) →
    (f.graph.behaviour root).Reaches s ∧ (f.graph.behaviour root).Reaches t ∧
      ∃ r ∈ run.regions, f.tokens r s ≠ f.tokens r t

theorem solvedOrReported (rooted : f.Rooted root)
    (answer : Synthesis.run solve f c o = .ok run)
    (whole : Phase.minimizing ∈ run.monitor.entered) : run.SolvedOrReported root := by
  obtain ⟨accounted, goal⟩ := accounted_of_run rooted answer whole
  refine ⟨fun s e reached known disabled unlisted => ?_, fun s ms t mt differ apart => ?_⟩
  · have none : ∀ a ∈ f.graph.outgoing s, a.label ≠ e := by
      rintro a edge rfl
      obtain ⟨member, source⟩ := rooted.wellFormed.mem_outgoing.1 edge
      exact disabled a.target ⟨a, member, source, rfl, rfl⟩
    have reachable := rooted.isReachable_iff_reaches.2 reached
    obtain ⟨r, member, disables⟩ :=
      (accounted.disabled s e reachable known none).resolve_left unlisted
    exact ⟨r, member, (Frame.disables_iff.1 disables).2⟩
  · have unjoined : ¬ run.Joins s t := by
      intro joined
      obtain ⟨g, listed, both⟩ := exists_group_of_joins accounted.forest differ joined
      exact apart g listed both
    obtain ⟨r, member, separates⟩ :=
      (accounted.separated goal s ms t mt differ).resolve_left unjoined
    obtain ⟨hs, ht, tokens⟩ := Frame.separates_iff.1 separates
    exact ⟨rooted.isReachable_iff_reaches.1 hs, rooted.isReachable_iff_reaches.1 ht,
      r, member, tokens⟩

/-- A failing run: the state beside the cycle is told from no other. -/
theorem solvedOrReported_strayCycle : ∃ run, Synthesis.run .best strayFrame = .ok run ∧
    Phase.minimizing ∈ run.monitor.entered ∧ run.succeeded = false ∧
      run.SolvedOrReported "s0" := by
  have check : ((Synthesis.run .best strayFrame).toOption.any fun run =>
      run.monitor.entered.contains .minimizing && !run.succeeded) = true := by decide +kernel
  cases answer : Synthesis.run .best strayFrame with
  | error e => simp [answer, Except.toOption] at check
  | ok run =>
    simp only [answer, Except.toOption, Option.any_some, Bool.and_eq_true,
      List.contains_iff_mem, Bool.not_eq_true'] at check
    exact ⟨run, rfl, check.1, check.2, solvedOrReported strayFrame_rooted answer check.1⟩

end NetSynthesis.Synthesis
