import NetSynthesis.Proofs.GatheredRegions
import NetSynthesis.Proofs.GeneratedClasses
import NetSynthesis.Proofs.NetCompleteness

/-! What runs report as failed. With an exact solver an event is reported just with the states in
which no search disables it, and states are reported together if they are related by pairs that no
search tells apart. Neither depends on the regions that were found first. -/
namespace NetSynthesis.Synthesis

open DisjointSets Relation

variable {f : Frame} {root : State} {solve : Solver} {c : NetClass} {ls : Locations} {o : Options}
  {languageOnly : Bool} {run run' : Synthesis f} {s t : State} {e : Event}

/-! ### Events with states -/

/-- A list of all events with the states in which they have failed, each event once. -/
structure IsReport (report : List (Event × List State)) (failed : State → Event → Prop) :
    Prop where
  nodup : (report.map (·.1)).Nodup
  nonempty : ∀ p ∈ report, p.2 ≠ []
  lists_iff : ∀ s e, Lists report s e ↔ failed s e

section Reports

variable {report : List (Event × List State)} {problems : List (State × Event)} {e' : Event}

theorem mem_keys_addState :
    e' ∈ (addState e s report).map (·.1) ↔ e' = e ∨ e' ∈ report.map (·.1) := by
  induction report with
  | nil => simp [addState]
  | cons p report ih =>
    rw [addState]
    split
    · rename_i same
      subst same
      simp
    · simp only [List.map_cons, List.mem_cons, ih]
      exact or_left_comm

theorem nodup_keys_addState (nodup : (report.map (·.1)).Nodup) :
    ((addState e s report).map (·.1)).Nodup := by
  induction report with
  | nil => simp [addState]
  | cons p report ih =>
    obtain ⟨fresh, rest⟩ := List.nodup_cons.1 nodup
    rw [addState]
    split
    · exact List.nodup_cons.2 ⟨fresh, rest⟩
    · rename_i differ
      refine List.nodup_cons.2 ⟨fun known => ?_, ih rest⟩
      exact (mem_keys_addState.1 known).elim differ fresh

theorem nonempty_addState (nonempty : ∀ p ∈ report, p.2 ≠ []) :
    ∀ p ∈ addState e s report, p.2 ≠ [] := by
  induction report with
  | nil => simp [addState]
  | cons p report ih =>
    obtain ⟨first, rest⟩ := List.forall_mem_cons.1 nonempty
    rw [addState]
    split
    · exact List.forall_mem_cons.2 ⟨by simp, rest⟩
    · exact List.forall_mem_cons.2 ⟨first, ih rest⟩

/-- Failures one after the other as they are recorded. -/
def eventReport (problems : List (State × Event)) : List (Event × List State) :=
  problems.foldl (fun found p => addState p.2 p.1 found) []

theorem isReport_eventReport (problems : List (State × Event)) :
    IsReport (eventReport problems) fun s e => (s, e) ∈ problems := by
  induction problems using List.reverseRecOn with
  | nil => exact ⟨List.nodup_nil, by simp [eventReport], by simp [eventReport, Lists]⟩
  | append_singleton problems p ih =>
    rw [eventReport, List.foldl_append, List.foldl_cons, List.foldl_nil]
    refine ⟨nodup_keys_addState ih.nodup, nonempty_addState ih.nonempty, fun s e => ?_⟩
    rw [lists_addState, List.mem_append, List.mem_singleton, or_comm]
    exact or_congr_left (ih.lists_iff s e)

end Reports

/-! ### Unsolved problems -/

def isUnsolved {α : Type} : Except Error (Option α) → Bool
  | .ok none => true
  | _ => false

theorem isUnsolved_iff {α : Type} {x : Except Error (Option α)} :
    isUnsolved x = true ↔ x = .ok none := by
  match x with
  | .ok none => simp [isUnsolved]
  | .ok (some _) => simp [isUnsolved]
  | .error _ => simp [isUnsolved]

/-- The disabled events that no search disables. -/
def unsolvedEvents (f : Frame) (c : NetClass) (ls : Locations) (o : Options) (solve : Solver) :
    List (State × Event) :=
  f.eventProblems.filter fun p =>
    isUnsolved ((SearchChain.of f f.basis c ls o).disabling solve p.1 p.2)

/-- The pairs of states still to be told apart that no search tells apart. -/
def unsolvedPairs (c : NetClass) (ls : Locations) (o : Options) (solve : Solver)
    (regions : List (Region f.size)) : List (State × State) :=
  (f.statePairs regions).filter fun p =>
    isUnsolved ((SearchChain.of f f.basis c ls o).separating solve p.1 p.2)

def recordEvent (f : Frame) (c : NetClass) (ls : Locations) (o : Options) (solve : Solver)
    (report : List (Event × List State)) (p : State × Event) : List (Event × List State) :=
  if isUnsolved ((SearchChain.of f f.basis c ls o).disabling solve p.1 p.2) then
    addState p.2 p.1 report
  else report

def recordPair (f : Frame) (c : NetClass) (ls : Locations) (o : Options) (solve : Solver)
    (d : DisjointSets State) (p : State × State) : DisjointSets State :=
  if isUnsolved ((SearchChain.of f f.basis c ls o).separating solve p.1 p.2) then
    (d.join p.1 p.2).2
  else d

theorem foldl_recordEvent : f.eventProblems.foldl (recordEvent f c ls o solve) [] =
    eventReport (unsolvedEvents f c ls o solve) := by
  rw [eventReport, unsolvedEvents, List.foldl_filter]
  rfl

theorem foldl_recordPair (regions : List (Region f.size)) :
    (f.statePairs regions).foldl (recordPair f c ls o solve) {} =
      ofPairs (unsolvedPairs c ls o solve regions) := by
  rw [ofPairs, unsolvedPairs, List.foldl_filter]
  rfl

section Steps

variable (rooted : f.Rooted root) (located : f.locations = .ok ls) (exactly : solve.Exact)
  (representable : c.Representable o.weightLimit) (gathered : Gathered c ls o languageOnly run)

include rooted located exactly representable gathered

/-- A problem is recorded if the searches do not solve it, whatever was found before. -/
theorem Gathered.failedEvents_step (known : e ∈ f.events)
    (answer : Synthesis.solveEvent solve run (s, e) = .ok run') :
    run'.failedEvents = recordEvent f c ls o solve run.failedEvents (s, e) := by
  obtain ⟨_, _, ⟨⟨r, obtainable, disables⟩, same⟩ | ⟨none, _, added⟩⟩ :=
    gathered.solveEvent rooted exactly.inRange answer
  · rw [same, recordEvent, if_neg]
    intro unsolved
    have all := (SearchChain.disabling_eq_none_iff rooted located exactly representable known).1
      (isUnsolved_iff.1 unsolved) r obtainable
    exact Bool.false_ne_true (all.symm.trans disables)
  · rw [added, recordEvent, if_pos (isUnsolved_iff.2 none)]

theorem Gathered.failedStates_step (answer : Synthesis.solveStates solve run (s, t) = .ok run') :
    run'.failedStates = recordPair f c ls o solve run.failedStates (s, t) := by
  obtain ⟨_, _, ⟨⟨r, obtainable, separates⟩, same⟩ | ⟨none, _, joined⟩⟩ :=
    gathered.solveStates rooted exactly.inRange answer
  · rw [same, recordPair, if_neg]
    intro unsolved
    have all := (SearchChain.separating_eq_none_iff rooted located exactly representable).1
      (isUnsolved_iff.1 unsolved) r obtainable
    exact Bool.false_ne_true (all.symm.trans separates)
  · rw [joined, recordPair, if_pos (isUnsolved_iff.2 none)]

theorem Gathered.failedEvents_eq (clean : run.failedEvents = [])
    (answer : run.solveEvents solve = .ok run') :
    run'.failedEvents = eventReport (unsolvedEvents f c ls o solve) := by
  have changed : run'.failedEvents =
      f.eventProblems.foldl (recordEvent f c ls o solve) (run.enter .essp).failedEvents := by
    refine (foldlM_view (I := Gathered c ls o languageOnly) (v := Synthesis.failedEvents) ?_
      (gathered.enter .essp) answer).2
    rintro ⟨s, e⟩ member current next gathered answer
    obtain ⟨_, known, _⟩ := Frame.mem_eventProblems.1 member
    exact ⟨(gathered.solveEvent rooted exactly.inRange answer).1,
      gathered.failedEvents_step rooted located exactly representable known answer⟩
  have entered : (run.enter .essp).failedEvents = [] := clean
  rw [changed, entered, foldl_recordEvent]

theorem Gathered.failedStates_eq (both : languageOnly = false) (clean : run.failedStates = {})
    (answer : run.separateStates solve = .ok run') :
    run'.failedStates = ofPairs (unsolvedPairs c ls o solve run.regions) ∧
      run'.failedEvents = run.failedEvents := by
  rw [Synthesis.separateStates, gathered.languageOnly, both, if_neg Bool.false_ne_true] at answer
  obtain ⟨⟨_, events⟩, changed⟩ : (Gathered c ls o languageOnly run' ∧
      run'.failedEvents = run.failedEvents) ∧ run'.failedStates =
        (f.statePairs run.regions).foldl (recordPair f c ls o solve)
          (run.enter .ssp).failedStates := by
    refine foldlM_view (I := fun current => Gathered c ls o languageOnly current ∧
      current.failedEvents = run.failedEvents) (v := Synthesis.failedStates) ?_
      ⟨gathered.enter .ssp, rfl⟩ answer
    rintro ⟨s, t⟩ _ current next ⟨gathered, events⟩ answer
    obtain ⟨kept, recorded, _⟩ := gathered.solveStates rooted exactly.inRange answer
    exact ⟨⟨kept, recorded.trans events⟩,
      gathered.failedStates_step rooted located exactly representable answer⟩
  have entered : (run.enter .ssp).failedStates = {} := clean
  exact ⟨by rw [changed, entered, foldl_recordPair], events⟩

end Steps

/-! ### Pairs of states -/

/-- Two states of the system that the searches of a run do not tell apart. -/
def Inseparable (run : Synthesis f) (solve : Solver) (s t : State) : Prop :=
  s ∈ f.graph.states ∧ t ∈ f.graph.states ∧ run.chain.separating solve s t = .ok none

section Pairs

variable (rooted : f.Rooted root) (located : f.locations = .ok ls) (exactly : solve.Exact)
  (representable : c.Representable o.weightLimit)

include rooted located exactly representable

theorem separating_eq_none_symm
    (none : (SearchChain.of f f.basis c ls o).separating solve s t = .ok none) :
    (SearchChain.of f f.basis c ls o).separating solve t s = .ok .none := by
  rw [SearchChain.separating_eq_none_iff rooted located exactly representable] at none ⊢
  intro r obtainable
  rw [← Bool.not_eq_true, Frame.separates_comm, Bool.not_eq_true]
  exact none r obtainable

/-- No search tells an unreachable state from any other. -/
theorem separating_eq_none_of_unreachable (off : f.isReachable s = false) :
    (SearchChain.of f f.basis c ls o).separating solve s t = .ok none := by
  rw [SearchChain.separating_eq_none_iff rooted located exactly representable]
  intro r _
  simp [Frame.separates, off]

/-- Reachable states are told apart unless all regions give them the same tokens. -/
theorem separating_eq_none_iff_tokens (hs : f.isReachable s = true) (ht : f.isReachable t = true) :
    (SearchChain.of f f.basis c ls o).separating solve s t = .ok none ↔
      ∀ r, f.Obtainable c ls o r → f.tokens r s = f.tokens r t := by
  rw [SearchChain.separating_eq_none_iff rooted located exactly representable]
  refine forall₂_congr fun r _ => ?_
  simp [Frame.separates, hs, ht]

variable (gathered : Gathered c ls o languageOnly run)

include gathered

theorem Inseparable.symm (both : run.Inseparable solve s t) : run.Inseparable solve t s := by
  obtain ⟨hs, ht, none⟩ := both
  rw [gathered.chain] at none
  refine ⟨ht, hs, ?_⟩
  rw [gathered.chain]
  exact separating_eq_none_symm rooted located exactly representable none

/-- The pairs that are left over generate the same classes as all inseparable pairs. -/
theorem generated_unsolvedPairs {regions : List (Region f.size)}
    (obtainable : ∀ r ∈ regions, f.Obtainable c ls o r) :
    Generated (unsolvedPairs c ls o solve regions) s t ↔ EqvGen (run.Inseparable solve) s t := by
  have joined {a b : State} (pair : (a, b) ∈ f.statePairs regions)
      (none : (SearchChain.of f f.basis c ls o).separating solve a b = .ok none) :
      Generated (unsolvedPairs c ls o solve regions) a b :=
    .rel a b (List.mem_filter.2 ⟨pair, isUnsolved_iff.2 none⟩)
  have known := rooted.isReachable_root
  constructor
  · refine EqvGen.mono (fun a b pair => ?_) s t
    obtain ⟨member, unsolved⟩ := List.mem_filter.1 pair
    obtain ⟨ha, hb⟩ := rooted.mem_states_of_mem_statePairs member
    refine ⟨ha, hb, ?_⟩
    rw [gathered.chain]
    exact isUnsolved_iff.1 unsolved
  have lost {a b : State} (ha : a ∈ f.graph.states) (hb : f.isReachable b = true)
      (off : f.isReachable a = false) : Generated (unsolvedPairs c ls o solve regions) a b :=
    joined (Frame.mem_statePairs_unreachable ha (rooted.mem_states hb) off hb)
      (separating_eq_none_of_unreachable rooted located exactly representable off)
  intro related
  induction related with
  | refl a => exact .refl a
  | symm a b _ ih => exact .symm _ _ ih
  | trans a b c _ _ first second => exact .trans _ _ _ first second
  | rel a b both =>
    obtain ⟨ma, mb, none⟩ := both
    rw [gathered.chain] at none
    cases ha : f.isReachable a <;> cases hb : f.isReachable b
    · exact .trans _ _ _ (lost ma known ha) (.symm _ _ (lost mb known hb))
    · exact lost ma hb ha
    · exact .symm _ _ (lost mb ha hb)
    by_cases same : a = b
    · exact same ▸ .refl a
    rcases Frame.separated_or_mem_block rooted.wellFormed ha hb same with ⟨r, member, separates⟩ |
      ⟨block, member, inA, inB⟩
    · have all := (SearchChain.separating_eq_none_iff rooted located exactly representable).1 none r
        (obtainable r member)
      exact absurd (all.symm.trans separates) Bool.false_ne_true
    · rcases Frame.mem_pairs_of_ne inA inB same with pair | pair
      · exact joined (Frame.mem_statePairs_block member pair) none
      · exact .symm _ _ (joined (Frame.mem_statePairs_block member pair)
          (separating_eq_none_symm rooted located exactly representable none))

end Pairs

/-! ### Whole runs -/

/-- What a run that goes on after failures reports. -/
theorem reports_of_run (rooted : f.Rooted root) (exactly : solve.Exact)
    (representable : c.Representable o.weightLimit) (patient : o.quickFail = false)
    (located : f.locations = .ok ls) (answer : Synthesis.run solve f c o languageOnly = .ok run) :
    run.failedEvents = eventReport (unsolvedEvents f c ls o solve) ∧
      (languageOnly = false → IsClasses run.failedStateGroups (EqvGen (run.Inseparable solve))) ∧
      (languageOnly = true → run.failedStateGroups = []) := by
  obtain ⟨_, ls', located', cases⟩ := run_cases answer
  obtain rfl := Except.ok.inj (located.symm.trans located')
  have opened := gathered_opening f c o languageOnly ls
  have inRange := exactly.inRange
  rcases cases with ⟨middle, last, events, states, rfl⟩ | ⟨stopped, result, rfl⟩
  · have recorded := opened.failedEvents_eq rooted located exactly representable rfl events
    obtain ⟨gathered, before⟩ := opened.solveEvents rooted inRange events
    obtain ⟨lastEvents, lastStates⟩ := finish_failures last
    rw [lastEvents, failedStateGroups, lastStates]
    cases languageOnly with
    | true =>
      rw [separateStates, gathered.languageOnly, if_pos rfl] at states
      obtain rfl := Except.ok.inj states
      have empty : middle.failedStates = {} := before
      exact ⟨recorded, by simp, fun _ => by rw [empty]; rfl⟩
    | false =>
      obtain ⟨joined, kept⟩ :=
        gathered.failedStates_eq rooted located exactly representable rfl before states
      have finished := (gathered.separateStates rooted inRange states).1.finish
      refine ⟨kept.trans recorded, fun _ => ?_, by simp⟩
      rw [joined]
      refine (joined_ofPairs _).isClasses.congr fun s t _ => ?_
      exact generated_unsolvedPairs rooted located exactly representable finished
        gathered.obtainable
  · have quick := (opened.stopped rooted inRange result).2.1
    exact absurd (patient.symm.trans quick) Bool.false_ne_true

/-! ### One report for all solvers -/

section Solvers

variable {solve' : Solver} {c' : NetClass} {o' : Options} (rooted : f.Rooted root)
  (located : f.locations = .ok ls) (exactly : solve.Exact)
  (representable : c.Representable o.weightLimit) (exactly' : solve'.Exact)
  (representable' : c'.Representable o'.weightLimit)
  (fewer : ∀ r, f.Obtainable c' ls o' r → f.Obtainable c ls o r)

include rooted located exactly representable exactly' representable' fewer

/-- Where fewer regions can be had, no more events are disabled. -/
theorem disabling_eq_none_mono (known : e ∈ f.events)
    (none : (SearchChain.of f f.basis c ls o).disabling solve s e = .ok none) :
    (SearchChain.of f f.basis c' ls o').disabling solve' s e = .ok .none := by
  rw [SearchChain.disabling_eq_none_iff rooted located exactly representable known] at none
  rw [SearchChain.disabling_eq_none_iff rooted located exactly' representable' known]
  exact fun r obtainable => none r (fewer r obtainable)

/-- Nor are more states told apart. -/
theorem Inseparable.mono (gathered : Gathered c ls o languageOnly run)
    (gathered' : Gathered c' ls o' languageOnly run') (both : run.Inseparable solve s t) :
    run'.Inseparable solve' s t := by
  obtain ⟨hs, ht, none⟩ := both
  rw [gathered.chain, SearchChain.separating_eq_none_iff rooted located exactly representable]
    at none
  refine ⟨hs, ht, ?_⟩
  rw [gathered'.chain, SearchChain.separating_eq_none_iff rooted located exactly' representable']
  exact fun r obtainable => none r (fewer r obtainable)

end Solvers

/-- Runs that can have the same regions have the same reports, with whatever exact solvers. -/
theorem same_reports {solve' : Solver} {c' : NetClass} {o' : Options} (rooted : f.Rooted root)
    (located : f.locations = .ok ls) (exactly : solve.Exact)
    (representable : c.Representable o.weightLimit) (exactly' : solve'.Exact)
    (representable' : c'.Representable o'.weightLimit) (patient : o.quickFail = false)
    (patient' : o'.quickFail = false) (same : ∀ r, f.Obtainable c ls o r ↔ f.Obtainable c' ls o' r)
    (answer : Synthesis.run solve f c o languageOnly = .ok run)
    (answer' : Synthesis.run solve' f c' o' languageOnly = .ok run') :
    run'.failedEvents = run.failedEvents ∧
      SameGroups run'.failedStateGroups run.failedStateGroups := by
  obtain ⟨_, located₁, gathered⟩ := gathered_of_run rooted exactly.inRange answer
  obtain rfl := Except.ok.inj (located.symm.trans located₁)
  obtain ⟨_, located₂, gathered'⟩ := gathered_of_run rooted exactly'.inRange answer'
  obtain rfl := Except.ok.inj (located.symm.trans located₂)
  obtain ⟨events, classes, none⟩ :=
    reports_of_run rooted exactly representable patient located answer
  obtain ⟨events', classes', none'⟩ :=
    reports_of_run rooted exactly' representable' patient' located answer'
  have more (r : Region f.size) := (same r).1
  have fewer (r : Region f.size) := (same r).2
  constructor
  · rw [events, events']
    refine congrArg eventReport (List.filter_congr fun p member => ?_)
    obtain ⟨_, known, _⟩ := Frame.mem_eventProblems.1 member
    rw [Bool.eq_iff_iff, isUnsolved_iff, isUnsolved_iff]
    exact ⟨disabling_eq_none_mono rooted located exactly' representable' exactly representable
      more known,
      disabling_eq_none_mono rooted located exactly representable exactly' representable'
        fewer known⟩
  · cases languageOnly with
    | true => rw [none rfl, none' rfl]; exact fun _ => .rfl
    | false =>
      have both : run'.Inseparable solve' = run.Inseparable solve := by
        ext s t
        exact ⟨.mono rooted located exactly' representable' exactly representable more
          gathered' gathered,
          .mono rooted located exactly representable exactly' representable' fewer
            gathered gathered'⟩
      rw [both] at classes'
      exact (classes' rfl).sameGroups (classes rfl)

theorem Inseparable.trans {u : State} (rooted : f.Rooted root) (located : f.locations = .ok ls)
    (exactly : solve.Exact) (representable : c.Representable o.weightLimit)
    (gathered : Gathered c ls o languageOnly run)
    (connected : ∀ s ∈ f.graph.states, f.isReachable s = true) (first : run.Inseparable solve s t)
    (second : run.Inseparable solve t u) : run.Inseparable solve s u := by
  obtain ⟨hs, ht, left⟩ := first
  obtain ⟨_, hu, right⟩ := second
  have alike {a b : State} (ha : a ∈ f.graph.states) (hb : b ∈ f.graph.states) :
      run.chain.separating solve a b = .ok none ↔
        ∀ r, f.Obtainable c ls o r → f.tokens r a = f.tokens r b := by
    rw [gathered.chain]
    exact separating_eq_none_iff_tokens rooted located exactly representable
      (connected a ha) (connected b hb)
  refine ⟨hs, hu, (alike hs hu).2 fun r obtainable => ?_⟩
  exact ((alike hs ht).1 left r obtainable).trans ((alike ht hu).1 right r obtainable)

section Frames

variable (rooted : f.Rooted root) (exactly : solve.Exact)
  (representable : c.Representable o.weightLimit) (patient : o.quickFail = false)
  (answer : Synthesis.run solve f c o = .ok run)

include rooted exactly representable patient answer

/-- Events are reported with the reachable states in which the searches do not disable them. -/
theorem isReport_failedEvents : IsReport run.failedEvents fun s e =>
    f.isReachable s = true ∧ e ∈ f.events ∧ (∀ a ∈ f.graph.outgoing s, a.label ≠ e) ∧
      run.chain.disabling solve s e = .ok none := by
  obtain ⟨ls, located, gathered⟩ := gathered_of_run rooted exactly.inRange answer
  have events := (reports_of_run rooted exactly representable patient located answer).1
  have report := isReport_eventReport (unsolvedEvents f c ls o solve)
  rw [← events] at report
  refine ⟨report.nodup, report.nonempty, fun s e => ?_⟩
  rw [report.lists_iff, unsolvedEvents, List.mem_filter, isUnsolved_iff, gathered.chain,
    Frame.mem_eventProblems, Frame.isDisabled_iff, and_assoc, and_assoc]

/-- If all states are reachable, the groups are the classes of states not told apart. -/
theorem isClasses_failedStateGroups (connected : ∀ s ∈ f.graph.states, f.isReachable s = true) :
    (∀ s t u, run.Inseparable solve s t → run.Inseparable solve t u →
        run.Inseparable solve s u) ∧
      IsClasses run.failedStateGroups (run.Inseparable solve) := by
  obtain ⟨ls, located, gathered⟩ := gathered_of_run rooted exactly.inRange answer
  have classes := (reports_of_run rooted exactly representable patient located answer).2.1 rfl
  have symm (s t : State) (both : run.Inseparable solve s t) : run.Inseparable solve t s :=
    both.symm rooted located exactly representable gathered
  have trans (s t u : State) (first : run.Inseparable solve s t)
      (second : run.Inseparable solve t u) : run.Inseparable solve s u :=
    first.trans rooted located exactly representable gathered connected second
  exact ⟨trans, classes.of_eqvGen symm trans⟩

end Frames

end NetSynthesis.Synthesis
