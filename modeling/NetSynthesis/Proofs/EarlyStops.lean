import NetSynthesis.Proofs.FailedGroups

/-! Runs that stop early. When a run is to stop is no matter of what it does until then: a run that
is to stop at its first failure, or after a number of problems, goes through the problems in step
with the run that goes on. It stops with an error, or with a failure that the other run reports too,
or it has the same results. -/
namespace NetSynthesis

variable {f : Frame}

def Options.stopping (o : Options) (quickFail : Bool) (budget : Option Nat) : Options :=
  { o with quickFail, budget }

def Synthesis.withOptions (o : Options) (run : Synthesis f) : Synthesis f :=
  { run with options := o }

def Stop.withOptions (o : Options) : Stop f → Stop f
  | .quickFail run => .quickFail (run.withOptions o)
  | .error e run => .error e (run.withOptions o)

namespace Synthesis

variable {root : State} {solve : Solver} {c : NetClass} {ls : Locations} {o o' : Options}
  {languageOnly : Bool} {run run' : Synthesis f} {s t : State} {e : Event}

section Fields

variable (o : Options) (run : Synthesis f)

@[simp] theorem options_withOptions : (run.withOptions o).options = o := rfl

@[simp] theorem regions_withOptions : (run.withOptions o).regions = run.regions := rfl

@[simp] theorem chain_withOptions : (run.withOptions o).chain = run.chain := rfl

@[simp] theorem languageOnly_withOptions :
    (run.withOptions o).languageOnly = run.languageOnly := rfl

@[simp] theorem failedEvents_withOptions :
    (run.withOptions o).failedEvents = run.failedEvents := rfl

@[simp] theorem failedStates_withOptions :
    (run.withOptions o).failedStates = run.failedStates := rfl

end Fields

/-! ### One problem -/

theorem failStates_withOptions (run : Synthesis f) (s t : State) :
    (run.withOptions o').failStates s t = (run.failStates s t).withOptions o' := by
  unfold failStates notify withOptions
  with_reducible rfl

theorem finish_withOptions (run : Synthesis f) :
    (run.withOptions o').finish = run.finish.withOptions o' := by
  unfold finish enter notify withOptions succeeded failedStateGroups
  with_reducible rfl

section Attempt

variable {solves : Region f.size → Bool} {message : Region f.size → String}
  {search : SearchChain f → Except Error (Option (Region f.size))}
  {fail : Synthesis f → Synthesis f}

theorem attempt_options (kept : ∀ run, (fail run).options = run.options)
    (answer : run.attempt solves message search fail = .ok run') : run'.options = run.options := by
  rcases attempt_cases answer with ⟨_, _, _, rfl⟩ | ⟨_, _, rfl⟩ | ⟨_, _, rfl⟩
  · rfl
  · rfl
  · exact kept run.counted

variable (commutes : ∀ run, fail (run.withOptions o') = (fail run).withOptions o')

include commutes

/-- Where both runs count a problem, they go apart only after a failure. -/
theorem attempt_withOptions (counting : run.countProblem = .ok run.counted)
    (counting' : (run.withOptions o').countProblem = .ok (run.counted.withOptions o')) :
    (run.withOptions o').attempt solves message search fail =
        carry (withOptions o') (Stop.withOptions o') (run.attempt solves message search fail) ∨
      (run.attempt solves message search fail = (fail run.counted).afterFailure ∧
        (run.withOptions o').attempt solves message search fail =
          ((fail run.counted).withOptions o').afterFailure) := by
  have same : (run.withOptions o').counted = run.counted.withOptions o' := rfl
  rw [attempt_of_counted counting, attempt_of_counted (counting'.trans (by rw [same])), same,
    commutes, regions_withOptions, chain_withOptions]
  cases run.regions.find? solves with
  | some r => exact .inl rfl
  | none =>
    cases search run.chain with
    | error e => exact .inl rfl
    | ok found =>
      cases found with
      | some r => exact .inl rfl
      | none => exact .inr ⟨rfl, rfl⟩

/-- A run that is to stop at its first failure stops where the other goes on. -/
theorem attempt_hasty (patient : run.options.quickFail = false) (budget : run.options.budget = none)
    (quick : o'.quickFail = true) (budget' : o'.budget = none)
    (kept : ∀ run, (fail run).options = run.options) :
    (run.withOptions o').attempt solves message search fail =
        carry (withOptions o') (Stop.withOptions o') (run.attempt solves message search fail) ∨
      (run.attempt solves message search fail = .ok (fail run.counted) ∧
        (run.withOptions o').attempt solves message search fail =
          .error (.quickFail ((fail run.counted).withOptions o'))) := by
  have counting : run.countProblem = .ok run.counted := countProblem_of_lt (by simp [budget])
  have counting' : (run.withOptions o').countProblem = .ok (run.counted.withOptions o') :=
    countProblem_of_lt (by simp [budget'])
  refine (attempt_withOptions commutes counting counting').imp_right fun ⟨goesOn, stops⟩ => ?_
  have options : (fail run.counted).options = run.options := kept run.counted
  rw [goesOn, stops, afterFailure, afterFailure, options, patient]
  exact ⟨rfl, if_pos quick⟩

end Attempt

def Exceeded (result : Except (Stop f) (Synthesis f)) : Prop :=
  ∃ k stopped, result = .error (.error (.budgetExceeded k) stopped)

section Limited

variable {solves : Region f.size → Bool} {message : Region f.size → String}
  {search : SearchChain f → Except Error (Option (Region f.size))}
  {fail : Synthesis f → Synthesis f}

/-- A run with a smaller budget has no other answers. -/
theorem attempt_limited (commutes : ∀ run, fail (run.withOptions o') = (fail run).withOptions o')
    (kept : ∀ run, (fail run).options = run.options)
    (tighter : ∀ k ∈ run.options.budget, ∃ k' ∈ o'.budget, k' ≤ k)
    (same : o'.quickFail = run.options.quickFail) :
    (run.withOptions o').attempt solves message search fail =
        carry (withOptions o') (Stop.withOptions o') (run.attempt solves message search fail) ∨
      Exceeded ((run.withOptions o').attempt solves message search fail) := by
  rcases (run.withOptions o').countProblem_cases with counting' | ⟨k, _, spent⟩
  swap
  · refine .inr ⟨k, (run.withOptions o').counted.enter .failed, ?_⟩
    rw [attempt, spent]
    rfl
  have counting : run.countProblem = .ok run.counted := by
    refine countProblem_of_lt fun k given => ?_
    obtain ⟨k', given', smaller⟩ := tighter k given
    by_contra spent
    have few : k' ≤ (run.withOptions o').examined := by
      change k' ≤ run.examined
      omega
    simp [countProblem_of_le given' few] at counting'
  rcases attempt_withOptions commutes counting counting' with agree | ⟨first, second⟩
  · exact .inl agree
  · have options : (fail run.counted).options = run.options := kept run.counted
    rw [first, second, afterFailure, afterFailure, options, options_withOptions, ← same]
    left
    cases o'.quickFail <;> rfl

end Limited

/-! ### Whole loops -/

section Loops

variable {α : Type} {step : Synthesis f → α → Except (Stop f) (Synthesis f)}
  (keeps : ∀ a run run', step run a = .ok run' → run'.options = run.options)

include keeps

theorem foldlM_options {xs : List α} (answer : xs.foldlM step run = .ok run') :
    run'.options = run.options :=
  foldlM_invariant (I := fun current => current.options = run.options)
    (fun a _ current next kept answer => (keeps a current next answer).trans kept) rfl answer

theorem foldlM_limited (each : ∀ a (run : Synthesis f), run.options = o →
      step (run.withOptions o') a =
          carry (withOptions o') (Stop.withOptions o') (step run a) ∨
        Exceeded (step (run.withOptions o') a)) (xs : List α) (run : Synthesis f)
    (options : run.options = o) :
    xs.foldlM step (run.withOptions o') =
        carry (withOptions o') (Stop.withOptions o') (xs.foldlM step run) ∨
      Exceeded (xs.foldlM step (run.withOptions o')) := by
  refine (foldlM_lockstep xs run).imp_right ?_
  rintro ⟨before, a, after, current, rfl, reached, reached', differ⟩
  have unchanged := (foldlM_options keeps reached).trans options
  obtain ⟨k, stopped, exceeded⟩ := (each a current unchanged).resolve_left differ
  refine ⟨k, stopped, ?_⟩
  rw [foldlM_of_reached reached', exceeded]
  rfl

/-- A loop that is to stop at the first failure has no failure to stop at, or it stops there and
the other one goes on. -/
theorem foldlM_hasty (fail : α → Synthesis f → Synthesis f)
    (each : ∀ a (run : Synthesis f), run.options = o →
      step (run.withOptions o') a =
          carry (withOptions o') (Stop.withOptions o') (step run a) ∨
        (step run a = .ok (fail a run.counted) ∧ step (run.withOptions o') a =
          .error (.quickFail ((fail a run.counted).withOptions o')))) (xs : List α)
    (run : Synthesis f) (options : run.options = o) :
    xs.foldlM step (run.withOptions o') =
        carry (withOptions o') (Stop.withOptions o') (xs.foldlM step run) ∨
      ∃ (before : List α) (a : α) (after : List α) (current : Synthesis f), a ∈ xs ∧
        before.foldlM step run = .ok current ∧
        before.foldlM step (run.withOptions o') = .ok (current.withOptions o') ∧
        xs.foldlM step run = after.foldlM step (fail a current.counted) ∧
        xs.foldlM step (run.withOptions o') =
          .error (.quickFail ((fail a current.counted).withOptions o')) := by
  refine (foldlM_lockstep xs run).imp_right ?_
  rintro ⟨before, a, after, current, rfl, reached, reached', differ⟩
  have unchanged := (foldlM_options keeps reached).trans options
  obtain ⟨goesOn, stops⟩ := (each a current unchanged).resolve_left differ
  refine ⟨before, a, after, current, by simp, reached, reached', ?_, ?_⟩
  · rw [foldlM_of_reached reached, goesOn]
    rfl
  · rw [foldlM_of_reached reached', stops]
    rfl

end Loops

theorem solveEvent_options (p : State × Event) (run run' : Synthesis f)
    (answer : solveEvent solve run p = .ok run') : run'.options = run.options := by
  rw [solveEvent_eq] at answer
  refine attempt_options (fun _ => ?_) answer
  rfl

theorem solveStates_options (p : State × State) (run run' : Synthesis f)
    (answer : solveStates solve run p = .ok run') : run'.options = run.options := by
  rw [solveStates_eq] at answer
  exact attempt_options (fun run => (failStates_frame run _ _).2.2.2.1) answer

/-! ### Budgets -/

section Budgets

variable (solve : Solver) (tighter : ∀ k ∈ o.budget, ∃ k' ∈ o'.budget, k' ≤ k)
  (same : o'.quickFail = o.quickFail) (options : run.options = o)

include tighter same options

theorem solveEvents_limited : (run.withOptions o').solveEvents solve =
      carry (withOptions o') (Stop.withOptions o') (run.solveEvents solve) ∨
    Exceeded ((run.withOptions o').solveEvents solve) := by
  refine foldlM_limited solveEvent_options (fun p current unchanged => ?_) f.eventProblems
    (run.enter .essp) options
  rw [solveEvent_eq, solveEvent_eq]
  subst unchanged
  exact attempt_limited (fun _ => rfl) (fun _ => rfl) tighter same

theorem separateStates_limited : (run.withOptions o').separateStates solve =
      carry (withOptions o') (Stop.withOptions o') (run.separateStates solve) ∨
    Exceeded ((run.withOptions o').separateStates solve) := by
  rw [separateStates, separateStates, languageOnly_withOptions, regions_withOptions]
  split
  · exact .inl rfl
  refine foldlM_limited solveStates_options (fun p current unchanged => ?_)
    (f.statePairs run.regions) (run.enter .ssp) options
  rw [solveStates_eq, solveStates_eq]
  subst unchanged
  exact attempt_limited (failStates_withOptions · p.1 p.2)
    (fun run => (failStates_frame run _ _).2.2.2.1) tighter same

theorem explore_limited :
    ((run.withOptions o').solveEvents solve).bind (separateStates solve) =
        carry (withOptions o') (Stop.withOptions o')
          ((run.solveEvents solve).bind (separateStates solve)) ∨
      Exceeded (((run.withOptions o').solveEvents solve).bind (separateStates solve)) := by
  rcases solveEvents_limited solve tighter same options with agree | ⟨k, stopped, exceeded⟩
  · rw [agree]
    cases events : run.solveEvents solve with
    | error stop => exact .inl rfl
    | ok middle =>
      exact separateStates_limited solve tighter same
        ((foldlM_options solveEvent_options events).trans options)
  · exact .inr ⟨k, stopped, by rw [exceeded]; rfl⟩

end Budgets

/-- A run has ended because its budget was too small. -/
def Exhausted (result : Except Failure (Synthesis f)) : Prop :=
  ∃ k notices, result = .error ⟨.budgetExceeded k, notices⟩

theorem start_stopping (quickFail quickFail' : Bool) (budget budget' : Option Nat) :
    start f c (o.stopping quickFail' budget') languageOnly =
      (start f c (o.stopping quickFail budget) languageOnly).map
        (withOptions (o.stopping quickFail' budget')) := by
  unfold start
  cases f.graph.checkInitial with
  | error e => rfl
  | ok =>
    cases f.graph.checkDeterministic with
    | error e => rfl
    | ok => cases f.locations <;> rfl

theorem start_eq_error {e : Error} (refused : start f c o languageOnly = .error e) :
    f.graph.checkInitial = .error e ∨ f.graph.checkDeterministic = .error e ∨
      f.locations = .error e := by
  unfold start at refused
  rcases bind_eq_error.1 refused with initial | ⟨_, _, refused⟩
  · exact .inl initial
  rcases bind_eq_error.1 refused with deterministic | ⟨_, _, refused⟩
  · exact .inr (.inl deterministic)
  rcases bind_eq_error.1 refused with located | ⟨_, _, refused⟩
  · exact .inr (.inr located)
  · simp [pure, Except.pure] at refused

/-- A run with a smaller budget ends because of it, or it is the same run. -/
theorem run_limited {quickFail : Bool} {budget budget' : Option Nat}
    (tighter : ∀ k ∈ budget, ∃ k' ∈ budget', k' ≤ k) :
    Exhausted (Synthesis.run solve f c (o.stopping quickFail budget') languageOnly) ∨
      Synthesis.run solve f c (o.stopping quickFail budget') languageOnly =
        (Synthesis.run solve f c (o.stopping quickFail budget) languageOnly).map
          (withOptions (o.stopping quickFail budget')) := by
  rw [Synthesis.run, Synthesis.run, start_stopping quickFail quickFail budget budget']
  cases begin : start f c (o.stopping quickFail budget) languageOnly with
  | error e => exact .inr rfl
  | ok first =>
    obtain ⟨_, _, ls, _, rfl⟩ := start_eq_ok.1 begin
    generalize opened : opening f c (o.stopping quickFail budget) languageOnly ls = first
    have options : first.options = o.stopping quickFail budget := by rw [← opened]; rfl
    simp only [Except.map]
    have same : (o.stopping quickFail budget').quickFail =
      (o.stopping quickFail budget).quickFail := rfl
    rcases explore_limited solve tighter same options with agree | ⟨k, stopped, exceeded⟩
    · right
      rw [agree]
      cases (first.solveEvents solve).bind (separateStates solve) with
      | ok last => exact congrArg Except.ok (finish_withOptions last)
      | error stop => cases stop <;> rfl
    · exact .inl ⟨k, stopped.notices, by rw [exceeded]⟩

/-! ### First failures -/

/-- A run that is to stop at its first failure and goes on has had none. -/
theorem Clean.attempt_of_quick (clean : Clean c ls o languageOnly run) (quick : o.quickFail = true)
    {solves : Region f.size → Bool} {message : Region f.size → String}
    {search : SearchChain f → Except Error (Option (Region f.size))}
    {fail : Synthesis f → Synthesis f} (kept : ∀ run, (fail run).options = run.options)
    (answer : run.attempt solves message search fail = .ok run') :
    Clean c ls o languageOnly run' := by
  rcases attempt_cases answer with ⟨r, _, _, rfl⟩ | ⟨r, _, rfl⟩ | ⟨_, patient, _⟩
  · exact clean.counted.notify _ _
  · exact clean.counted.accept r
  · have options : (fail run.counted).options = o := (kept run.counted).trans clean.options
    simp [options, quick] at patient

theorem Clean.foldEvents (clean : Clean c ls o languageOnly run) (quick : o.quickFail = true)
    {problems : List (State × Event)} (answer : problems.foldlM (solveEvent solve) run = .ok run') :
    Clean c ls o languageOnly run' := by
  refine foldlM_invariant (I := Clean c ls o languageOnly) (fun p _ current next clean answer => ?_)
    clean answer
  rw [solveEvent_eq] at answer
  refine clean.attempt_of_quick quick (fun _ => ?_) answer
  rfl

theorem Clean.foldStates (clean : Clean c ls o languageOnly run) (quick : o.quickFail = true)
    {pairs : List (State × State)} (answer : pairs.foldlM (solveStates solve) run = .ok run') :
    Clean c ls o languageOnly run' := by
  refine foldlM_invariant (I := Clean c ls o languageOnly) (fun p _ current next clean answer => ?_)
    clean answer
  rw [solveStates_eq] at answer
  exact clean.attempt_of_quick quick (fun run => (failStates_frame run _ _).2.2.2.1) answer

theorem Clean.separateStates (clean : Clean c ls o languageOnly run) (quick : o.quickFail = true)
    (answer : run.separateStates solve = .ok run') : Clean c ls o languageOnly run' := by
  rw [Synthesis.separateStates] at answer
  split at answer
  · exact Except.ok.inj answer ▸ clean
  · exact (clean.enter .ssp).foldStates quick answer

section Hasty

variable (solve : Solver) (patient : o.quickFail = false) (budget : o.budget = none)
  (quick : o'.quickFail = true) (budget' : o'.budget = none) (rooted : f.Rooted root)
  (sound : Sound c ls o run) (clean : Clean c ls o' languageOnly (run.withOptions o'))

include patient budget quick budget' rooted sound clean

theorem solveEvents_hasty : (run.withOptions o').solveEvents solve =
      carry (withOptions o') (Stop.withOptions o') (run.solveEvents solve) ∨
    ∃ s e stopped, (run.withOptions o').solveEvents solve = .error (.quickFail stopped) ∧
      stopped.failedEvents = [(e, [s])] ∧ stopped.failedStates = {} ∧
      ∀ middle, run.solveEvents solve = .ok middle → Lists middle.failedEvents s e := by
  have each (p : State × Event) (current : Synthesis f) (options : current.options = o) :
      solveEvent solve (current.withOptions o') p =
          carry (withOptions o') (Stop.withOptions o') (solveEvent solve current p) ∨
        (solveEvent solve current p = .ok (current.counted.failEvent p.1 p.2) ∧
          solveEvent solve (current.withOptions o') p =
            .error (.quickFail ((current.counted.failEvent p.1 p.2).withOptions o'))) := by
    rw [solveEvent_eq, solveEvent_eq]
    subst options
    exact attempt_hasty (fun _ => rfl) patient budget quick budget' (fun _ => rfl)
  refine (foldlM_hasty solveEvent_options (fun p current => current.failEvent p.1 p.2) each
    f.eventProblems (run.enter .essp) sound.options).imp_right ?_
  rintro ⟨before, ⟨s, e⟩, after, current, _, reached, reached', goesOn, stops⟩
  have entered : Clean c ls o' languageOnly ((run.enter .essp).withOptions o') := clean.enter .essp
  have unfailed := entered.foldEvents quick reached'
  have events : current.failedEvents = [] := unfailed.events
  refine ⟨s, e, _, stops, ?_, unfailed.states, fun middle answer => ?_⟩
  · rw [failedEvents_withOptions]
    change addState e s current.failedEvents = _
    rw [events]
    rfl
  · have kept := ((sound.enter .essp).1.foldEvents rooted reached).1
    obtain ⟨failed, _, listed⟩ := kept.counted.failEvent s e
    exact (failed.foldEvents rooted (goesOn.symm.trans answer)).2.1.events s e listed

theorem separateStates_hasty : (run.withOptions o').separateStates solve =
      carry (withOptions o') (Stop.withOptions o') (run.separateStates solve) ∨
    ∃ s t stopped, s ≠ t ∧
      (run.withOptions o').separateStates solve = .error (.quickFail stopped) ∧
      stopped.failedEvents = [] ∧ stopped.failedStates = (({} : DisjointSets State).join s t).2 ∧
      ∀ last, run.separateStates solve = .ok last → last.Joins s t := by
  have each (p : State × State) (current : Synthesis f) (options : current.options = o) :
      solveStates solve (current.withOptions o') p =
          carry (withOptions o') (Stop.withOptions o') (solveStates solve current p) ∨
        (solveStates solve current p = .ok (current.counted.failStates p.1 p.2) ∧
          solveStates solve (current.withOptions o') p =
            .error (.quickFail ((current.counted.failStates p.1 p.2).withOptions o'))) := by
    rw [solveStates_eq, solveStates_eq]
    subst options
    exact attempt_hasty (failStates_withOptions · p.1 p.2) patient budget quick budget'
      (fun run => (failStates_frame run _ _).2.2.2.1)
  rw [separateStates, separateStates, languageOnly_withOptions, regions_withOptions]
  split
  · exact .inl rfl
  refine (foldlM_hasty solveStates_options (fun p current => current.failStates p.1 p.2) each
    (f.statePairs run.regions) (run.enter .ssp) sound.options).imp_right ?_
  rintro ⟨before, ⟨s, t⟩, after, current, member, reached, reached', goesOn, stops⟩
  have entered : Clean c ls o' languageOnly ((run.enter .ssp).withOptions o') := clean.enter .ssp
  have unfailed := entered.foldStates quick reached'
  have states : current.counted.failedStates = {} := unfailed.states
  refine ⟨s, t, _, (rooted.of_mem_statePairs member).1, stops, ?_, ?_, fun last answer => ?_⟩
  · rw [failedEvents_withOptions, (failStates_frame current.counted s t).2.2.2.2.1]
    exact unfailed.events
  · rw [failedStates_withOptions, failedStates_failStates, states]
  · have kept := ((sound.enter .ssp).1.foldStates rooted reached).1
    obtain ⟨failed, _, joined⟩ := kept.counted.failStates s t
    exact (failed.foldStates rooted (goesOn.symm.trans answer)).2.1.states s t joined

end Hasty

/-- Just one failure is reported, and another run reports it too. -/
def ReportsOne (quick full : Synthesis f) : Prop :=
  (∃ s e, quick.failedEvents = [(e, [s])] ∧ quick.failedStateGroups = [] ∧
      Lists full.failedEvents s e) ∨
    ∃ s t, s ≠ t ∧ quick.failedEvents = [] ∧
      (∃ g, quick.failedStateGroups = [g] ∧ g.Perm [s, t]) ∧
      ∃ g ∈ full.failedStateGroups, s ∈ g ∧ t ∈ g

/-- A run succeeds, with the same regions, if and only if another run does, or it reports one of
the failures of that run. -/
structure SameVerdict (quick full : Synthesis f) : Prop where
  succeeded : quick.succeeded = full.succeeded
  regions : quick.succeeded = true → quick.regions = full.regions
  failure : quick.succeeded = false → ReportsOne quick full

theorem ReportsOne.sameVerdict {quick full : Synthesis f} (one : ReportsOne quick full) :
    SameVerdict quick full := by
  obtain ⟨failed, failed'⟩ : quick.succeeded = false ∧ full.succeeded = false := by
    rcases one with ⟨s, e, events, _, p, listed, _⟩ | ⟨s, t, _, _, ⟨g, groups, _⟩, h, listed, _⟩
    · simp [Synthesis.succeeded, events, List.ne_nil_of_mem listed]
    · simp [Synthesis.succeeded, groups, List.ne_nil_of_mem listed]
  exact ⟨failed.trans failed'.symm, by simp [failed], fun _ => one⟩

theorem verdict_of_explore (solve : Solver) (patient : o.quickFail = false)
    (budget : o.budget = none) (quick : o'.quickFail = true) (budget' : o'.budget = none)
    (rooted : f.Rooted root) (sound : Sound c ls o run)
    (clean : Clean c ls o' languageOnly (run.withOptions o')) {middle last : Synthesis f}
    (events : run.solveEvents solve = .ok middle)
    (states : middle.separateStates solve = .ok last) :
    (((run.withOptions o').solveEvents solve).bind (separateStates solve) =
        .ok (last.withOptions o') ∧ (last.withOptions o').succeeded = true) ∨
      ∃ stopped, ((run.withOptions o').solveEvents solve).bind (separateStates solve) =
        .error (.quickFail stopped) ∧ ReportsOne (stopped.enter .failed) last.finish := by
  obtain ⟨soundMiddle, _, _⟩ := sound.solveEvents rooted events
  obtain ⟨soundLast, more, _⟩ := soundMiddle.separateStates rooted states
  obtain ⟨lastEvents, lastStates⟩ := finish_failures last
  rcases solveEvents_hasty solve patient budget quick budget' rooted sound clean with
    agree | ⟨s, e, stopped, stops, one, none, listed⟩
  · rw [events] at agree
    have cleanMiddle := (clean.enter .essp).foldEvents quick agree
    rcases separateStates_hasty solve patient budget quick budget' rooted soundMiddle cleanMiddle
      with agree' | ⟨s, t, stopped, differ, stops, none, one, joined⟩
    · rw [states] at agree'
      exact .inl ⟨bind_eq_ok.2 ⟨_, agree, agree'⟩,
        (cleanMiddle.separateStates quick agree').succeeded⟩
    · refine .inr ⟨stopped, bind_eq_error.2 (.inr ⟨_, agree, stops⟩), .inr ⟨s, t, differ, none, ?_⟩⟩
      have kept : (stopped.enter .failed).failedStateGroups = stopped.failedStates.classes.1 := rfl
      rw [kept, one, failedStateGroups, lastStates]
      exact ⟨groups_join differ, exists_group_of_joins soundLast.forest differ (joined last states)⟩
  · refine .inr ⟨stopped, bind_eq_error.2 (.inl stops), .inl ⟨s, e, one, ?_, ?_⟩⟩
    · have kept : (stopped.enter .failed).failedStateGroups = stopped.failedStates.classes.1 := rfl
      rw [kept, none]
      rfl
    · rw [lastEvents]
      exact more.events s e (listed middle events)

/-! ### Whole runs -/

/-- Without a budget a run and the one that is to stop at its first failure have one verdict. -/
theorem run_hasty (solve : Solver) (rooted : f.Rooted root)
    (convertible : c.Convertible o.weightLimit) {first : Synthesis f}
    (begun : start f c (o.stopping false none) languageOnly = .ok first) :
    ∃ quick full, Synthesis.run solve f c (o.stopping true none) languageOnly = .ok quick ∧
      Synthesis.run solve f c (o.stopping false none) languageOnly = .ok full ∧
      SameVerdict quick full := by
  have begun' : start f c (o.stopping true none) languageOnly =
      .ok (first.withOptions (o.stopping true none)) := by
    rw [start_stopping false true none none, begun]
    rfl
  obtain ⟨_, _, ls, located, opened⟩ := start_eq_ok.1 begun
  have sound : Sound c ls (o.stopping false none) first := opened ▸ sound_opening f c _ _ ls
  have clean : Clean c ls (o.stopping true none) languageOnly
      (first.withOptions (o.stopping true none)) := by
    rw [← opened]
    exact ⟨rfl, rfl, rfl, rfl, rfl⟩
  cases explored : (first.solveEvents solve).bind (separateStates solve) with
  | error stop =>
    have quick := (sound.stops rfl rooted located convertible explored).1
    exact absurd quick Bool.false_ne_true
  | ok last =>
    have full := run_of_finished begun explored
    obtain ⟨middle, events, states⟩ := bind_eq_ok.1 explored
    rcases verdict_of_explore solve rfl rfl rfl rfl rooted sound clean events states with
      ⟨agree, success⟩ | ⟨stopped, stops, one⟩
    · have succeeded : (last.finish.withOptions (o.stopping true none)).succeeded = true := by
        rw [← finish_withOptions, (finish_frame _).2, success]
      refine ⟨_, _, run_of_finished begun' agree, full, ?_⟩
      rw [finish_withOptions]
      exact ⟨rfl, fun _ => rfl, fun failed => absurd (succeeded.symm.trans failed) (by simp)⟩
    · exact ⟨_, _, run_of_stopped begun' stops, full, one.sameVerdict⟩

def ledCycle : TransitionSystem :=
  let there : Arc := ⟨"s0", "a", "s1", none⟩
  let back : Arc := ⟨"s1", "a", "s0", none⟩
  let entry : Arc := ⟨"orphan", "a", "s0", none⟩
  { initial := some "s0"
    incidences :=
      [⟨"s0", [there], [back, entry]⟩, ⟨"s1", [back], [there]⟩, ⟨"orphan", [entry], []⟩]
    arcs := [there, back, entry]
    alphabet := ["a"] }

def ledFrame : Frame := ⟨⟨ledCycle, some "s0", .forward, by decide, _, rfl⟩, rfl, _, rfl⟩

end Synthesis

end NetSynthesis
