import NetSynthesis.Proofs.DisjointForest
import NetSynthesis.Proofs.ExceptSteps
import NetSynthesis.Proofs.SearchSoundness
import NetSynthesis.Synthesis

/-! What a finished synthesis has done. Every step keeps the regions found so far valid and leaves
its problem solved or recorded as failed, and neither is lost by later steps. All problems of a run
are therefore accounted for, also after the choice of regions, and a run that has succeeded has
solved all of them. -/
namespace NetSynthesis.Synthesis

variable {f : Frame} {root : State} {solve : Solver} {c : NetClass} {ls : Locations} {o : Options}
  {run run' : Synthesis f} {s t : State} {e : Event}

/-! ### Records of failures -/

/-- A state is reported with an event. -/
def Lists (report : List (Event × List State)) (s : State) (e : Event) : Prop :=
  ∃ p ∈ report, p.1 = e ∧ s ∈ p.2

theorem lists_cons {report : List (Event × List State)} {p : Event × List State} :
    Lists (p :: report) s e ↔ (p.1 = e ∧ s ∈ p.2) ∨ Lists report s e := by
  simp only [Lists, List.mem_cons, or_and_right, exists_or, exists_eq_left]

theorem lists_addState {report : List (Event × List State)} {s' : State} {e' : Event} :
    Lists (addState e s report) s' e' ↔ (s', e') = (s, e) ∨ Lists report s' e' := by
  rw [Prod.mk.injEq]
  induction report with
  | nil => simp [addState, Lists, and_comm, eq_comm]
  | cons p report ih =>
    rw [addState]
    split
    · rename_i same
      subst same
      simp only [lists_cons, List.mem_append, List.mem_singleton, and_or_left]
      rw [or_comm (a := p.1 = e' ∧ s' ∈ p.2), or_assoc, and_comm, eq_comm (a := e')]
    · rw [lists_cons, lists_cons, ih]
      exact or_left_comm

/-- Two states have been joined, or are one that has been joined with another. -/
def Joins (run : Synthesis f) (s t : State) : Prop :=
  s ∈ run.failedStates.members ∧ t ∈ run.failedStates.members ∧
    run.failedStates.root s = run.failedStates.root t

theorem Joins.symm (joined : run.Joins s t) : run.Joins t s :=
  ⟨joined.2.1, joined.1, joined.2.2.symm⟩

def Failed (run : Synthesis f) : Prop :=
  (∃ s e, Lists run.failedEvents s e) ∨ ∃ s t, s ≠ t ∧ run.Joins s t

/-- The searches are those of the frame, and what they have found is valid. -/
structure Sound (c : NetClass) (ls : Locations) (o : Options) (run : Synthesis f) : Prop where
  chain : run.chain = .of f f.basis c ls o
  options : run.options = o
  valid : ∀ r ∈ run.regions, f.Valid r
  forest : run.failedStates.Forest

/-- Nothing that has been found is lost, neither regions nor failures. -/
structure Extends (run run' : Synthesis f) : Prop where
  regions : run.regions ⊆ run'.regions
  events : ∀ s e, Lists run.failedEvents s e → Lists run'.failedEvents s e
  states : ∀ s t, run.Joins s t → run'.Joins s t
  languageOnly : run'.languageOnly = run.languageOnly

theorem Extends.refl (run : Synthesis f) : Extends run run :=
  ⟨List.Subset.refl _, fun _ _ => id, fun _ _ => id, rfl⟩

theorem Extends.trans {run'' : Synthesis f} (first : Extends run run')
    (second : Extends run' run'') : Extends run run'' :=
  ⟨fun _ member => second.regions (first.regions member),
    fun s e => second.events s e ∘ first.events s e,
    fun s t => second.states s t ∘ first.states s t,
    second.languageOnly.trans first.languageOnly⟩

theorem exists_group_of_joins (forest : run.failedStates.Forest) (differ : s ≠ t)
    (joined : run.Joins s t) : ∃ g ∈ run.failedStateGroups, s ∈ g ∧ t ∈ g := by
  obtain ⟨g, listed, inside⟩ := forest.isClasses.exists_mem s t differ joined
  exact ⟨g, listed, inside, (forest.isClasses.mem_iff g listed s inside t).2 joined⟩

theorem not_succeeded_of_failed (forest : run.failedStates.Forest) (failed : run.Failed) :
    run.succeeded = false := by
  rw [succeeded]
  rcases failed with ⟨s, e, p, listed, _⟩ | ⟨s, t, differ, joined⟩
  · have events : run.failedEvents ≠ [] := List.ne_nil_of_mem listed
    simp [events]
  · obtain ⟨g, listed, _⟩ := exists_group_of_joins forest differ joined
    have groups : run.failedStateGroups ≠ [] := List.ne_nil_of_mem listed
    simp [groups]

/-! ### Recording -/

/-- A run with more problems counted. -/
def counted (run : Synthesis f) : Synthesis f := { run with examined := run.examined + 1 }

theorem countProblem_of_lt (within : ∀ k ∈ run.options.budget, run.examined < k) :
    run.countProblem = .ok run.counted := by
  unfold countProblem counted
  cases budget : run.options.budget with
  | none => simp [budget]
  | some limit =>
    have enough := within limit budget
    simp only [budget, if_neg (show ¬ limit < run.examined + 1 by omega)]

theorem countProblem_of_le {k : Nat} (budget : run.options.budget = some k)
    (spent : k ≤ run.examined) :
    run.countProblem = .error (.error (.budgetExceeded k) (run.counted.enter .failed)) := by
  unfold countProblem counted
  simp only [budget, if_pos (show k < run.examined + 1 by omega)]

theorem countProblem_cases (run : Synthesis f) : run.countProblem = .ok run.counted ∨
    ∃ k, run.options.budget = some k ∧ run.countProblem =
      .error (.error (.budgetExceeded k) (run.counted.enter .failed)) := by
  by_cases within : ∀ k ∈ run.options.budget, run.examined < k
  · exact .inl (countProblem_of_lt within)
  · obtain ⟨k, budget, spent⟩ : ∃ k ∈ run.options.budget, k ≤ run.examined := by
      simpa using within
    exact .inr ⟨k, budget, countProblem_of_le budget spent⟩

theorem Sound.counted (sound : Sound c ls o run) : Sound c ls o run.counted :=
  ⟨sound.chain, sound.options, sound.valid, sound.forest⟩

theorem Extends.counted (run : Synthesis f) : Extends run run.counted :=
  ⟨List.Subset.refl _, fun _ _ => id, fun _ _ => id, rfl⟩

theorem Sound.notify (sound : Sound c ls o run) (kind : Notice.Kind) (message : String) :
    Sound c ls o (run.notify kind message) ∧ Extends run (run.notify kind message) :=
  ⟨⟨sound.chain, sound.options, sound.valid, sound.forest⟩,
    ⟨List.Subset.refl _, fun _ _ => id, fun _ _ => id, rfl⟩⟩

theorem Sound.enter (sound : Sound c ls o run) (p : Phase) :
    Sound c ls o (run.enter p) ∧ Extends run (run.enter p) :=
  ⟨⟨sound.chain, sound.options, sound.valid, sound.forest⟩,
    ⟨List.Subset.refl _, fun _ _ => id, fun _ _ => id, rfl⟩⟩

theorem Sound.accept (sound : Sound c ls o run) {r : Region f.size} (valid : f.Valid r) :
    Sound c ls o (run.accept r) ∧ Extends run (run.accept r) ∧ r ∈ (run.accept r).regions := by
  have regions : (run.accept r).regions = run.regions ++ [r] := rfl
  refine ⟨⟨sound.chain, sound.options, fun q member => ?_, sound.forest⟩,
    ⟨by rw [regions]; exact List.subset_append_left _ _, fun _ _ => id, fun _ _ => id, rfl⟩,
    by simp [regions]⟩
  rw [regions] at member
  rcases List.mem_append.1 member with old | new
  · exact sound.valid q old
  · rw [List.mem_singleton.1 new]; exact valid

theorem Sound.failEvent (sound : Sound c ls o run) (s : State) (e : Event) :
    Sound c ls o (run.failEvent s e) ∧ Extends run (run.failEvent s e) ∧
      Lists (run.failEvent s e).failedEvents s e := by
  have recorded : (run.failEvent s e).failedEvents = addState e s run.failedEvents := rfl
  refine ⟨⟨sound.chain, sound.options, sound.valid, sound.forest⟩,
    ⟨List.Subset.refl _, fun s' e' old => ?_, fun _ _ => id, rfl⟩, ?_⟩
  · rw [recorded]
    exact lists_addState.2 (.inr old)
  · rw [recorded]
    exact lists_addState.2 (.inl rfl)

theorem failedStates_failStates :
    (run.failStates s t).failedStates = (run.failedStates.join s t).2 := by
  unfold failStates notify
  with_reducible rfl

theorem failStates_frame (run : Synthesis f) (s t : State) :
    (run.failStates s t).regions = run.regions ∧
      (run.failStates s t).chain = run.chain ∧
      (run.failStates s t).languageOnly = run.languageOnly ∧
      (run.failStates s t).options = run.options ∧
      (run.failStates s t).failedEvents = run.failedEvents ∧
      (run.failStates s t).goal = run.goal ∧
      (run.failStates s t).locations = run.locations := by
  unfold failStates notify
  refine ⟨?_, ?_, ?_, ?_, ?_, ?_, ?_⟩ <;> with_reducible rfl

theorem Sound.failStates (sound : Sound c ls o run) (s t : State) :
    Sound c ls o (run.failStates s t) ∧ Extends run (run.failStates s t) ∧
      (run.failStates s t).Joins s t := by
  obtain ⟨forest, roots, members⟩ := sound.forest.join s t
  rw [← failedStates_failStates] at forest roots members
  have joined : (run.failStates s t).failedStates.root s =
      (run.failStates s t).failedStates.root t := by rw [roots, roots]; simp
  have older {a b : State} (old : run.Joins a b) : (run.failStates s t).Joins a b := by
    obtain ⟨ma, mb, same⟩ := old
    refine ⟨(members a).2 (.inr (.inr ma)), (members b).2 (.inr (.inr mb)), ?_⟩
    rw [roots, roots, same]
  obtain ⟨regions, chain, languageOnly, options, events, _⟩ := failStates_frame run s t
  refine ⟨⟨chain.trans sound.chain, options.trans sound.options, ?_, forest⟩,
    ⟨?_, ?_, fun _ _ => older, languageOnly⟩,
    (members s).2 (.inl rfl), (members t).2 (.inr (.inl rfl)), joined⟩
  · rw [regions]; exact sound.valid
  · rw [regions]; exact List.Subset.refl _
  · rw [events]; exact fun _ _ => id

/-! ### One problem -/

section Attempt

variable {solves : Region f.size → Bool} {message : Region f.size → String}
  {search : SearchChain f → Except Error (Option (Region f.size))}
  {fail : Synthesis f → Synthesis f}

/-- What is done about a problem of either kind. -/
def attempt (run : Synthesis f) (solves : Region f.size → Bool) (message : Region f.size → String)
    (search : SearchChain f → Except Error (Option (Region f.size)))
    (fail : Synthesis f → Synthesis f) : Except (Stop f) (Synthesis f) := do
  let run ← run.countProblem
  match run.regions.find? solves with
  | some r => return run.notify .regionFound (message r)
  | none =>
    match search run.chain with
    | .error e => throw (.error e run)
    | .ok (some r) => return run.accept r
    | .ok none => (fail run).afterFailure

theorem solveEvent_eq (run : Synthesis f) (s : State) (e : Event) :
    solveEvent solve run (s, e) = run.attempt (f.disables · s e)
      (fun r => s!"Event {e} already disabled at {s} by {r.text f.events}")
      (·.disabling solve s e) (·.failEvent s e) := by
  unfold solveEvent attempt
  rfl

theorem solveStates_eq (run : Synthesis f) (s t : State) :
    solveStates solve run (s, t) = run.attempt (f.separates · s t)
      (fun r => s!"States {s} and {t} already separated by {r.text f.events}")
      (·.separating solve s t) (·.failStates s t) := by
  unfold solveStates attempt
  rfl

theorem attempt_of_counted (counting : run.countProblem = .ok run.counted) :
    run.attempt solves message search fail = match run.regions.find? solves with
      | some r => .ok (run.counted.notify .regionFound (message r))
      | none => match search run.chain with
        | .error e => .error (.error e run.counted)
        | .ok (some r) => .ok (run.counted.accept r)
        | .ok none => (fail run.counted).afterFailure := by
  rw [attempt, counting]
  rfl

/-- A region was there, a search found one, or the failure is recorded and the run goes on. -/
theorem attempt_cases (answer : run.attempt solves message search fail = .ok run') :
    (∃ r ∈ run.regions, solves r = true ∧
      run' = run.counted.notify .regionFound (message r)) ∨
    (∃ r, search run.chain = .ok (some r) ∧ run' = run.counted.accept r) ∨
    (search run.chain = .ok none ∧ (fail run.counted).options.quickFail = false ∧
      run' = fail run.counted) := by
  rw [attempt] at answer
  rcases run.countProblem_cases with ok | ⟨_, _, failed⟩
  swap
  · simp [failed, bind, Except.bind] at answer
  simp only [ok, bind, Except.bind] at answer
  have regions : run.counted.regions = run.regions := rfl
  have chain : run.counted.chain = run.chain := rfl
  rw [regions, chain] at answer
  cases known : run.regions.find? solves with
  | some r =>
    rw [known] at answer
    exact .inl ⟨r, List.mem_of_find?_eq_some known, List.find?_some known,
      (pure_eq_ok.1 answer).symm⟩
  | none =>
    cases found : search run.chain with
    | error e => simp [known, found, throw, throwThe, MonadExceptOf.throw] at answer
    | ok region =>
      cases region with
      | some r =>
        simp only [known, found] at answer
        exact .inr (.inl ⟨r, rfl, (pure_eq_ok.1 answer).symm⟩)
      | none =>
        simp only [known, found, afterFailure] at answer
        split at answer
        · simp at answer
        · rename_i patient
          exact .inr (.inr ⟨rfl, by simpa using patient, (Except.ok.inj answer).symm⟩)

theorem attempt_quickFail
    (answer : run.attempt solves message search fail = .error (.quickFail run')) :
    search run.chain = .ok none ∧ (fail run.counted).options.quickFail = true ∧
      run' = fail run.counted := by
  rw [attempt] at answer
  rcases run.countProblem_cases with ok | ⟨_, _, failed⟩
  swap
  · simp [failed, bind, Except.bind] at answer
  simp only [ok, bind, Except.bind] at answer
  split at answer
  · simp [pure, Except.pure] at answer
  split at answer
  · simp [throw, throwThe, MonadExceptOf.throw] at answer
  · simp [pure, Except.pure] at answer
  · rename_i unsolved
    rw [afterFailure] at answer
    split at answer
    · rename_i quick
      exact ⟨unsolved, quick, (Stop.quickFail.inj (Except.error.inj answer)).symm⟩
    · simp at answer

variable {Q : Synthesis f → Prop} (sound : Sound c ls o run)
  (failing : ∀ run : Synthesis f, Sound c ls o run →
    Sound c ls o (fail run) ∧ Extends run (fail run) ∧ Q (fail run))

include sound failing

theorem Sound.attempt
    (searched : ∀ r, search run.chain = .ok (some r) → f.Valid r ∧ solves r = true)
    (answer : run.attempt solves message search fail = .ok run') :
    Sound c ls o run' ∧ Extends run run' ∧
      (Q run' ∨ ∃ r ∈ run'.regions, solves r = true) := by
  have start := Extends.counted run
  rcases attempt_cases answer with ⟨r, member, good, rfl⟩ | ⟨r, found, rfl⟩ | ⟨_, _, rfl⟩
  · obtain ⟨kept, more⟩ := sound.counted.notify .regionFound (message r)
    exact ⟨kept, start.trans more, .inr ⟨r, more.regions member, good⟩⟩
  · obtain ⟨valid, good⟩ := searched r found
    obtain ⟨kept, more, member⟩ := sound.counted.accept valid
    exact ⟨kept, start.trans more, .inr ⟨r, member, good⟩⟩
  · obtain ⟨kept, more, failed⟩ := failing _ sound.counted
    exact ⟨kept, start.trans more, .inl failed⟩

theorem Sound.attempt_quickFail
    (answer : run.attempt solves message search fail = .error (.quickFail run')) :
    Sound c ls o run' ∧ Q run' := by
  rw [(Synthesis.attempt_quickFail answer).2.2]
  exact ⟨(failing _ sound.counted).1, (failing _ sound.counted).2.2⟩

end Attempt

/-! ### Whole runs -/

def opening (f : Frame) (c : NetClass) (o : Options) (languageOnly : Bool) (ls : Locations) :
    Synthesis f :=
  { goal := c, options := o, languageOnly, locations := ls
    chain := .of f f.basis c ls o
    monitor := { name := s!"synthesis of {Text.quoted f.graph.name}" }
    notices := [⟨.basis, s!"Region basis has {f.basis.length} regions"⟩] }

theorem start_eq_ok {languageOnly : Bool} : start f c o languageOnly = .ok run ↔
    f.graph.checkInitial = .ok () ∧ f.graph.checkDeterministic = .ok () ∧
      ∃ ls, f.locations = .ok ls ∧ opening f c o languageOnly ls = run := by
  unfold start opening
  simp only [bind_eq_ok, pure_eq_ok, notify, List.nil_append]
  constructor
  · rintro ⟨⟨⟩, initial, ⟨⟩, deterministic, ls, located, same⟩
    exact ⟨initial, deterministic, ls, located, same⟩
  · rintro ⟨initial, deterministic, ls, located, same⟩
    exact ⟨(), initial, (), deterministic, ls, located, same⟩

theorem sound_opening (f : Frame) (c : NetClass) (o : Options) (languageOnly : Bool)
    (ls : Locations) : Sound c ls o (opening f c o languageOnly ls) :=
  ⟨rfl, rfl, by simp [opening], .empty⟩

section Steps

variable (rooted : f.Rooted root) (sound : Sound c ls o run)

include rooted sound

theorem Sound.solveEvent (answer : solveEvent solve run (s, e) = .ok run') :
    Sound c ls o run' ∧ Extends run run' ∧
      (Lists run'.failedEvents s e ∨ ∃ r ∈ run'.regions, f.disables r s e = true) := by
  rw [solveEvent_eq] at answer
  refine sound.attempt (Q := fun run => Lists run.failedEvents s e)
    (fun run sound => sound.failEvent s e) (fun r found => ?_) answer
  rw [sound.chain] at found
  exact SearchChain.disabling_sound rooted found

theorem Sound.solveStates (answer : solveStates solve run (s, t) = .ok run') :
    Sound c ls o run' ∧ Extends run run' ∧
      (run'.Joins s t ∨ ∃ r ∈ run'.regions, f.separates r s t = true) := by
  rw [solveStates_eq] at answer
  refine sound.attempt (Q := fun run => run.Joins s t)
    (fun run sound => sound.failStates s t) (fun r found => ?_) answer
  rw [sound.chain] at found
  exact SearchChain.separating_sound rooted found

theorem Sound.foldEvents {problems : List (State × Event)}
    (answer : problems.foldlM (Synthesis.solveEvent solve) run = .ok run') :
    Sound c ls o run' ∧ Extends run run' ∧ ∀ p ∈ problems,
      Lists run'.failedEvents p.1 p.2 ∨ ∃ r ∈ run'.regions, f.disables r p.1 p.2 = true :=
  foldlM_ok (I := Sound c ls o) (R := Extends)
    (Q := fun p run => Lists run.failedEvents p.1 p.2 ∨
      ∃ r ∈ run.regions, f.disables r p.1 p.2 = true)
    Extends.refl (fun _ _ _ => Extends.trans)
    (fun p _ _ more known => known.imp (more.events p.1 p.2)
      fun ⟨r, member, disables⟩ => ⟨r, more.regions member, disables⟩)
    (fun _ _ _ _ sound answer => Sound.solveEvent rooted sound answer) sound answer

theorem Sound.foldStates {pairs : List (State × State)}
    (answer : pairs.foldlM (Synthesis.solveStates solve) run = .ok run') :
    Sound c ls o run' ∧ Extends run run' ∧ ∀ p ∈ pairs,
      run'.Joins p.1 p.2 ∨ ∃ r ∈ run'.regions, f.separates r p.1 p.2 = true :=
  foldlM_ok (I := Sound c ls o) (R := Extends)
    (Q := fun p run => run.Joins p.1 p.2 ∨ ∃ r ∈ run.regions, f.separates r p.1 p.2 = true)
    Extends.refl (fun _ _ _ => Extends.trans)
    (fun p _ _ more known => known.imp (more.states p.1 p.2)
      fun ⟨r, member, separates⟩ => ⟨r, more.regions member, separates⟩)
    (fun _ _ _ _ sound answer => Sound.solveStates rooted sound answer) sound answer

theorem Sound.solveEvents (answer : run.solveEvents solve = .ok run') :
    Sound c ls o run' ∧ Extends run run' ∧ ∀ p ∈ f.eventProblems,
      Lists run'.failedEvents p.1 p.2 ∨ ∃ r ∈ run'.regions, f.disables r p.1 p.2 = true := by
  obtain ⟨entered, start⟩ := sound.enter .essp
  obtain ⟨kept, more, solved⟩ := entered.foldEvents rooted answer
  exact ⟨kept, start.trans more, solved⟩

theorem Sound.separateStates (answer : run.separateStates solve = .ok run') :
    Sound c ls o run' ∧ Extends run run' ∧ (run.languageOnly = false →
      ∀ p ∈ f.statePairs run.regions,
        run'.Joins p.1 p.2 ∨ ∃ r ∈ run'.regions, f.separates r p.1 p.2 = true) := by
  rw [Synthesis.separateStates] at answer
  split at answer
  · rename_i onlyLanguage
    obtain rfl := Except.ok.inj answer
    exact ⟨sound, .refl run, by simp [onlyLanguage]⟩
  obtain ⟨entered, start⟩ := sound.enter .ssp
  obtain ⟨kept, more, solved⟩ := entered.foldStates rooted answer
  exact ⟨kept, start.trans more, fun _ => solved⟩

theorem Sound.failed_of_quickFail
    (answer : (run.solveEvents solve).bind (Synthesis.separateStates solve) =
      .error (.quickFail run')) : Sound c ls o run' ∧ run'.Failed := by
  rcases bind_eq_error.1 answer with events | ⟨middle, events, states⟩
  · obtain ⟨p, _, current, sound, last⟩ := foldlM_error
      (fun p _ _ _ sound answer => (Sound.solveEvent rooted sound answer).1)
      (sound.enter .essp).1 events
    rw [solveEvent_eq] at last
    obtain ⟨sound, listed⟩ := sound.attempt_quickFail
      (Q := fun run => Lists run.failedEvents p.1 p.2) (fun run sound => sound.failEvent _ _) last
    exact ⟨sound, .inl ⟨_, _, listed⟩⟩
  · obtain ⟨sound, _, _⟩ := Sound.solveEvents rooted sound events
    rw [Synthesis.separateStates] at states
    split at states
    · simp at states
    obtain ⟨p, member, current, sound, last⟩ := foldlM_error
      (fun p _ _ _ sound answer => (Sound.solveStates rooted sound answer).1)
      (sound.enter .ssp).1 states
    rw [solveStates_eq] at last
    obtain ⟨sound, joined⟩ := sound.attempt_quickFail (Q := fun run => run.Joins p.1 p.2)
      (fun run sound => sound.failStates _ _) last
    exact ⟨sound, .inr ⟨_, _, (rooted.of_mem_statePairs member).1, joined⟩⟩

end Steps

/-- The regions of a run are valid, and every problem is recorded as failed or solved by one of
them. -/
structure Accounted (run : Synthesis f) : Prop where
  valid : ∀ r ∈ run.regions, f.Valid r
  forest : run.failedStates.Forest
  disabled : ∀ s e, f.isReachable s = true → e ∈ f.events →
    (∀ a ∈ f.graph.outgoing s, a.label ≠ e) →
    Lists run.failedEvents s e ∨ ∃ r ∈ run.regions, f.disables r s e = true
  separated : run.languageOnly = false → ∀ s ∈ f.graph.states, ∀ t ∈ f.graph.states, s ≠ t →
    run.Joins s t ∨ ∃ r ∈ run.regions, f.separates r s t = true

theorem finish_frame (run : Synthesis f) :
    run.finish.regions = f.minimize run.regions (!run.languageOnly) ∧
      run.finish.succeeded = run.succeeded := by
  unfold finish enter notify succeeded failedStateGroups
  constructor <;> with_reducible rfl

theorem finish_failures (run : Synthesis f) : run.finish.failedEvents = run.failedEvents ∧
    run.finish.failedStates = run.failedStates := by
  unfold finish enter notify
  constructor <;> with_reducible rfl

/-- Nothing is left out by a run that goes through all problems. -/
theorem Sound.accounted (rooted : f.Rooted root) (sound : Sound c ls o run) {found : Synthesis f}
    (answer : (run.solveEvents solve).bind (Synthesis.separateStates solve) = .ok found) :
    Accounted found ∧ found.languageOnly = run.languageOnly := by
  obtain ⟨middle, events, states⟩ := bind_eq_ok.1 answer
  obtain ⟨soundMiddle, first, disabled⟩ := sound.solveEvents rooted events
  obtain ⟨soundFound, second, separated⟩ := soundMiddle.separateStates rooted states
  refine ⟨⟨soundFound.valid, soundFound.forest, fun s e reached known none => ?_,
    fun both s ms t mt differ => ?_⟩, second.languageOnly.trans first.languageOnly⟩
  · have problem : (s, e) ∈ f.eventProblems :=
      Frame.mem_eventProblems.2 ⟨reached, known, Frame.isDisabled_iff.2 none⟩
    exact (disabled _ problem).imp (second.events s e)
      fun ⟨r, member, disables⟩ => ⟨r, second.regions member, disables⟩
  · rw [second.languageOnly] at both
    rcases rooted.separated_or_mem_statePairs ms mt differ with ⟨r, member, separates⟩ | pair | pair
    · exact .inr ⟨r, second.regions member, separates⟩
    · exact separated both _ pair
    · exact (separated both _ pair).imp Joins.symm
        fun ⟨r, member, separates⟩ => ⟨r, member, (Frame.separates_comm r t s).1 separates⟩

/-- The regions that are kept solve what all regions have solved. -/
theorem Accounted.finish (accounted : Accounted run) : Accounted run.finish := by
  obtain ⟨events, states⟩ := finish_failures run
  obtain ⟨regions, _⟩ := finish_frame run
  refine ⟨fun r member => ?_, ?_, fun s e reached known none => ?_, fun both s ms t mt differ => ?_⟩
  · rw [regions] at member
    exact accounted.valid r (Frame.mem_of_mem_minimize member)
  · rw [states]
    exact accounted.forest
  · rw [events, regions]
    exact (accounted.disabled s e reached known none).imp_right
      (Frame.exists_disables_minimize reached known none)
  · have goal : run.languageOnly = false := both
    rw [Joins, states, regions, goal]
    exact (accounted.separated goal s ms t mt differ).imp_right Frame.exists_separates_minimize

/-- The regions of a run are valid and solve all problems. -/
structure Solved (run : Synthesis f) (languageOnly : Bool) : Prop where
  valid : ∀ r ∈ run.regions, f.Valid r
  disabled : ∀ s e, f.isReachable s = true → e ∈ f.events →
    (∀ a ∈ f.graph.outgoing s, a.label ≠ e) → ∃ r ∈ run.regions, f.disables r s e = true
  separated : languageOnly = false → ∀ s t, f.isReachable s = true → f.isReachable t = true →
    s ≠ t → ∃ r ∈ run.regions, f.separates r s t = true
  reachable : languageOnly = false → ∀ s ∈ f.graph.states, f.isReachable s = true

/-- All problems are solved, if none has been recorded as failed. -/
theorem Accounted.solved (rooted : f.Rooted root) (accounted : Accounted run)
    (success : run.succeeded = true) : Solved run run.languageOnly := by
  have clean : ¬ run.Failed := fun failed => by
    simp [not_succeeded_of_failed accounted.forest failed] at success
  have separated (both : run.languageOnly = false) {s t : State} (ms : s ∈ f.graph.states)
      (mt : t ∈ f.graph.states) (differ : s ≠ t) : ∃ r ∈ run.regions, f.separates r s t = true :=
    (accounted.separated both s ms t mt differ).resolve_left
      fun joined => clean (.inr ⟨s, t, differ, joined⟩)
  refine ⟨accounted.valid, fun s e reached known none => ?_,
    fun both s t hs ht => separated both (rooted.mem_states hs) (rooted.mem_states ht),
    fun both s member => ?_⟩
  · exact (accounted.disabled s e reached known none).resolve_left
      fun listed => clean (.inl ⟨s, e, listed⟩)
  · -- No region tells an unreachable state from the root, so that this problem has failed.
    by_contra unreached
    have differ : s ≠ root := by
      rintro rfl
      exact unreached rooted.isReachable_root
    obtain ⟨r, _, separates⟩ :=
      separated both member (rooted.mem_states rooted.isReachable_root) differ
    exact unreached (Frame.separates_iff.1 separates).1

theorem run_of_finished {languageOnly : Bool} {first last : Synthesis f}
    (begun : start f c o languageOnly = .ok first)
    (finished : (first.solveEvents solve).bind (separateStates solve) = .ok last) :
    Synthesis.run solve f c o languageOnly = .ok last.finish := by
  rw [Synthesis.run]
  simp only [begun, finished]

theorem run_of_stopped {languageOnly : Bool} {first stopped : Synthesis f}
    (begun : start f c o languageOnly = .ok first)
    (result : (first.solveEvents solve).bind (separateStates solve) =
      .error (.quickFail stopped)) :
    Synthesis.run solve f c o languageOnly = .ok (stopped.enter .failed) := by
  rw [Synthesis.run]
  simp only [begun, result]

theorem run_of_error {languageOnly : Bool} {first stopped : Synthesis f} {e : Error}
    (begun : start f c o languageOnly = .ok first)
    (result : (first.solveEvents solve).bind (separateStates solve) =
      .error (.error e stopped)) :
    Synthesis.run solve f c o languageOnly = .error ⟨e, stopped.notices⟩ := by
  rw [Synthesis.run]
  simp only [begun, result]

/-- A run goes through all problems and finishes, or it stops at a failure. -/
theorem run_cases {languageOnly : Bool}
    (answer : Synthesis.run solve f c o languageOnly = .ok run) :
    f.graph.checkDeterministic = .ok () ∧ ∃ ls, f.locations = .ok ls ∧
      ((∃ middle last, (opening f c o languageOnly ls).solveEvents solve = .ok middle ∧
          middle.separateStates solve = .ok last ∧ run = last.finish) ∨
        ∃ stopped, ((opening f c o languageOnly ls).solveEvents solve).bind
            (separateStates solve) = .error (.quickFail stopped) ∧
          run = stopped.enter .failed) := by
  rw [Synthesis.run] at answer
  cases begin : start f c o languageOnly with
  | error e => simp [begin] at answer
  | ok begun =>
    obtain ⟨_, deterministic, ls, located, rfl⟩ := start_eq_ok.1 begin
    refine ⟨deterministic, ls, located, ?_⟩
    simp only [begin] at answer
    cases result : ((opening f c o languageOnly ls).solveEvents solve).bind
        (separateStates solve) with
    | ok last =>
      simp only [result] at answer
      obtain ⟨middle, events, states⟩ := bind_eq_ok.1 result
      exact .inl ⟨middle, last, events, states, (Except.ok.inj answer).symm⟩
    | error stop =>
      cases stop with
      | error e run => simp [result] at answer
      | quickFail stopped =>
        simp only [result] at answer
        exact .inr ⟨stopped, rfl, (Except.ok.inj answer).symm⟩

/-- A run that succeeds has solved all problems with the regions that it keeps. -/
theorem solved_of_run (rooted : f.Rooted root) {languageOnly : Bool}
    (answer : Synthesis.run solve f c o languageOnly = .ok run) (success : run.succeeded = true) :
    f.graph.checkDeterministic = .ok () ∧ Solved run languageOnly := by
  obtain ⟨deterministic, ls, _, cases⟩ := run_cases answer
  have sound := sound_opening f c o languageOnly ls
  refine ⟨deterministic, ?_⟩
  rcases cases with ⟨middle, last, events, states, rfl⟩ | ⟨stopped, result, rfl⟩
  · obtain ⟨accounted, goal⟩ := sound.accounted rooted (bind_eq_ok.2 ⟨middle, events, states⟩)
    have same : last.finish.languageOnly = languageOnly := goal
    exact same ▸ accounted.finish.solved rooted success
  · obtain ⟨kept, failed⟩ := sound.failed_of_quickFail rooted result
    have same : (stopped.enter .failed).succeeded = stopped.succeeded := rfl
    rw [same, not_succeeded_of_failed kept.forest failed] at success
    exact absurd success Bool.false_ne_true

end NetSynthesis.Synthesis
