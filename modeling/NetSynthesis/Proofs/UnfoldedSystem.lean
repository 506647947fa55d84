import NetSynthesis.Proofs.UnfoldingWalk

/-! The unfolded system. The walk needs no more steps than it is given, and what it leaves behind
has the paths of the system: a copy can do what its original can, and arcs lead to copies of the
states that the arcs of the system lead to. -/
namespace NetSynthesis.Unfolding

open ArcPath

variable {ts : TransitionSystem} {u : Unfolding} {w : Walk} {root first : State}
  {trail below : List Stay} {p : Stay} {way : State → ArcPath} {trace : State → List Event}

/-- A walk from a copy of the root that is still under way. -/
structure Underway (ts : TransitionSystem) (root first : State) (w : Walk) (trail : List Stay)
    (way : State → ArcPath) : Prop where
  exploring : Exploring ts w trail
  charted : Charted ts root first w.result w.onPath way
  initial : w.result.system.initial = some first
  first : (first, root) ∈ w.result.copyOf

theorem lookup_trail (distinct : (trail.map (·.state)).Nodup) (member : p ∈ trail) :
    (trail.map fun q => (q.state, q.copy)).lookup p.state = some p.copy := by
  have keys : ((trail.map fun q => (q.state, q.copy)).map (·.1)).Nodup := by
    rw [List.map_map]
    exact distinct
  exact (lookup_eq_some_iff_mem keys).2 (List.mem_map_of_mem member)

theorem lookup_off_trail {s : State} (off : s ∉ trail.map (·.state)) :
    (trail.map fun q => (q.state, q.copy)).lookup s = none := by
  rw [List.lookup_eq_none_iff]
  rintro _ member
  obtain ⟨q, inside, rfl⟩ := List.mem_map.1 member
  rw [bne_iff_ne]
  rintro rfl
  exact off (List.mem_map_of_mem inside)

namespace Underway

variable {s x : State} {a : Arc} {more : List Arc}

/-- The state and the copy that a step looks at. -/
theorem top {pending : List Arc} (exploring : Exploring ts w (⟨s, x, pending⟩ :: below)) :
    w.stack = (s, pending) :: below.map (fun p => (p.state, p.pending)) ∧
      w.onPath.lookup s = some x := by
  refine ⟨exploring.stack, ?_⟩
  rw [exploring.onPath]
  exact lookup_trail exploring.distinct List.mem_cons_self

theorem step_leave (under : Underway ts root first w (⟨s, x, []⟩ :: below) way) :
    ∃ w', w.step ts = .ok w' ∧ Underway ts root first w' below way := by
  obtain ⟨exploring, charted, initial, copied⟩ := under
  obtain ⟨stack, _⟩ := top exploring
  have onPath : w.onPath.filter (·.1 != s) = below.map fun p => (p.state, p.copy) := by
    have off := (List.nodup_cons.1 exploring.distinct).1
    rw [exploring.onPath, List.map_cons, List.filter_cons_of_neg (by simp), List.filter_eq_self]
    intro q member
    obtain ⟨p, inside, rfl⟩ := List.mem_map.1 member
    refine bne_iff_ne.2 fun same => off ?_
    exact List.mem_map.2 ⟨p, inside, same⟩
  rw [exploring.onPath] at charted
  refine ⟨⟨_, _, w.result⟩, ?_, exploring.leave, charted.leave, initial, copied⟩
  rw [Walk.step, stack]
  simp only
  rw [onPath]
  rfl

/-- What a step does about an arc to a copy on the path. -/
theorem step_eq_loop (exploring : Exploring ts w (⟨s, x, a :: more⟩ :: below)) {y : State}
    (onPath : w.onPath.lookup a.target = some y) {next : TransitionSystem}
    (added : w.result.system.addArc ⟨x, a.label, y, a.location⟩ = .ok next) :
    w.step ts = .ok ⟨(s, more) :: below.map fun p => (p.state, p.pending), w.onPath,
      { w.result with system := next }⟩ := by
  obtain ⟨stack, source⟩ := top exploring
  rw [Walk.step, stack]
  simp [source, onPath, Walk.addArc, added, bind, Except.bind, pure, Except.pure]

/-- What a step does about an arc to a state off the path. -/
theorem step_eq_descend (exploring : Exploring ts w (⟨s, x, a :: more⟩ :: below)) {y : State}
    (off : w.onPath.lookup a.target = none) {middle next : TransitionSystem}
    (entered : w.result.system.addState = .ok (middle, y))
    (added : middle.addArc ⟨x, a.label, y, a.location⟩ = .ok next) :
    w.step ts = .ok ⟨(a.target, ts.outgoing a.target) :: (s, more) ::
        below.map fun p => (p.state, p.pending), (a.target, y) :: w.onPath,
      ⟨next, w.result.copyOf ++ [(y, a.target)]⟩⟩ := by
  obtain ⟨stack, source⟩ := top exploring
  rw [Walk.step, stack]
  simp [source, off, Walk.enter, entered, Walk.addArc, added, bind, Except.bind, pure, Except.pure]

theorem step_loop (wf : ts.WellFormed) (det : ts.isDeterministic = true)
    (under : Underway ts root first w (⟨s, x, a :: more⟩ :: below) way)
    (member : p ∈ (⟨s, x, a :: more⟩ : Stay) :: below) (back : p.state = a.target) :
    ∃ w', w.step ts = .ok w' ∧ Underway ts root first w' (⟨s, x, more⟩ :: below) way := by
  obtain ⟨exploring, charted, initial, copied⟩ := under
  have target := exploring.listed p member
  rw [back] at target
  have whole : Exploring ts w ([] ++ ⟨s, x, a :: more⟩ :: below) := exploring
  obtain ⟨next, added, states, arcs, same, followed⟩ := whole.follow wf det target
  have onPath : w.onPath.lookup a.target = some p.copy := by
    rw [exploring.onPath, ← back]
    exact lookup_trail exploring.distinct member
  refine ⟨_, step_eq_loop exploring onPath added, followed, ?_, same.trans initial, copied⟩
  have passed := List.mem_map_of_mem (f := fun q : Stay => (q.state, q.copy)) member
  obtain ⟨arc, here⟩ := exploring.next_arc wf List.mem_cons_self
  rw [exploring.onPath] at charted ⊢
  exact charted.loop arc (back ▸ passed) ⟨here, target, rfl, rfl⟩ states arcs

theorem step_descend (wf : ts.WellFormed) (det : ts.isDeterministic = true)
    (under : Underway ts root first w (⟨s, x, a :: more⟩ :: below) way)
    (off : a.target ∉ ((⟨s, x, a :: more⟩ : Stay) :: below).map (·.state)) :
    ∃ w' y way', w.step ts = .ok w' ∧ Underway ts root first w'
      (⟨a.target, y, ts.outgoing a.target⟩ :: ⟨s, x, more⟩ :: below) way' := by
  obtain ⟨exploring, charted, initial, copied⟩ := under
  obtain ⟨arc, here⟩ := exploring.next_arc wf List.mem_cons_self
  obtain ⟨middle, y, entered, new, states, arcs, start, pushed⟩ :=
    exploring.push (wf.arc_ends a arc).2 off
  have target : (y, a.target) ∈ w.result.copyOf ++ [(y, a.target)] := by simp
  have whole : Exploring ts _ ([⟨a.target, y, ts.outgoing a.target⟩] ++
    ⟨s, x, a :: more⟩ :: below) := pushed
  obtain ⟨next, added, states', arcs', same, followed⟩ := whole.follow wf det target
  have offPath : w.onPath.lookup a.target = none := by
    rw [exploring.onPath]
    exact lookup_off_trail off
  have offStates : a.target ∉ w.onPath.map (·.1) := by
    rw [exploring.onPath, List.map_map]
    exact off
  have source := exploring.grown.mem_states here
  obtain ⟨way', leads, extended⟩ := charted.exists_extension exploring.grown
    exploring.mem_states_of_onPath (exploring.grown.mem_states copied) x a source new
  rw [exploring.onPath] at extended offStates
  refine ⟨_, y, way', step_eq_descend exploring offPath entered added, followed, ?_, ?_,
    List.mem_append_left _ copied⟩
  · rw [exploring.onPath]
    exact extended.descend arc here source offStates leads (states'.trans states) (arcs ▸ arcs')
  · rw [same, start, initial]
    rfl

theorem length_le (under : Underway ts root first w trail way) :
    trail.length ≤ ts.states.length := by
  have inside : trail.map (·.state) ⊆ ts.states := by
    intro s member
    obtain ⟨p, listed, rfl⟩ := List.mem_map.1 member
    exact under.exploring.grown.known _ (under.exploring.listed p listed)
  simpa using (under.exploring.distinct.subperm inside).length_le

/-- As long as the path is not empty there is a step, and it leaves less to do. -/
theorem step (wf : ts.WellFormed) (det : ts.isDeterministic = true)
    (under : Underway ts root first w (p :: below) way) :
    ∃ w' trail' way', w.step ts = .ok w' ∧ Underway ts root first w' trail' way' ∧
      remaining ts trail' < remaining ts (p :: below) := by
  obtain ⟨s, x, pending⟩ := p
  cases pending with
  | nil =>
    obtain ⟨w', ok, next⟩ := under.step_leave
    exact ⟨w', below, way, ok, next, by simp [remaining, stay]⟩
  | cons a more =>
    by_cases onPath : a.target ∈ ((⟨s, x, a :: more⟩ : Stay) :: below).map (·.state)
    · obtain ⟨p, member, back⟩ := List.mem_map.1 onPath
      obtain ⟨w', ok, next⟩ := under.step_loop wf det member back
      exact ⟨w', _, way, ok, next, remaining_loop s x a more below⟩
    · obtain ⟨w', y, way', ok, next⟩ := under.step_descend wf det onPath
      have few : (ts.outgoing a.target).length ≤ ts.arcs.length :=
        wf.outgoing_filter a.target ▸ List.length_filter_le _ _
      exact ⟨w', _, way', ok, next, remaining_descend s x a.target y a next.length_le few⟩

/-- However many steps it is given, the walk makes all of them or comes to an empty path. -/
theorem run_steps (wf : ts.WellFormed) (det : ts.isDeterministic = true)
    (under : Underway ts root first w trail way) (n : Nat) :
    ∃ w' trail' way', Walk.run ts n w = .ok w' ∧ Underway ts root first w' trail' way' ∧
      (trail' = [] ∨ remaining ts trail' + n ≤ remaining ts trail) := by
  induction n generalizing w trail way with
  | zero => exact ⟨w, trail, way, rfl, under, .inr le_rfl⟩
  | succ n ih =>
    cases trail with
    | nil =>
      have empty : w.stack = [] := under.exploring.stack
      exact ⟨w, [], way, by simp [Walk.run, empty]; rfl, under, .inl rfl⟩
    | cons p below =>
      obtain ⟨w', trail', way', ok, next, less⟩ := under.step wf det
      obtain ⟨w'', trail'', way'', rest, last, left⟩ := ih next
      have nonempty : w.stack.isEmpty = false := by rw [under.exploring.stack]; rfl
      refine ⟨w'', trail'', way'', by simp [Walk.run, nonempty, ok, Except.bind, rest], last, ?_⟩
      rcases left with empty | fewer
      · exact .inl empty
      · exact .inr (by omega)

theorem run (wf : ts.WellFormed) (det : ts.isDeterministic = true) {n : Nat}
    (under : Underway ts root first w trail way) (enough : remaining ts trail ≤ n) :
    ∃ w' way', Walk.run ts n w = .ok w' ∧ Underway ts root first w' [] way' := by
  obtain ⟨w', trail', way', ok, next, left⟩ := under.run_steps wf det n
  cases trail' with
  | nil => exact ⟨w', way', ok, next⟩
  | cons p below =>
    have positive : 0 < remaining ts (p :: below) := by simp [remaining, stay]
    have fewer := left.resolve_left (List.cons_ne_nil p below)
    omega

end Underway

/-! ### The start -/

def blank (ts : TransitionSystem) : TransitionSystem :=
  ts.alphabet.foldl (·.addEvent ·) { name := s!"Limited unfolding of {ts.name}" }

theorem foldl_addEvent {events : List Event} {system : TransitionSystem}
    (wf : system.WellFormed) (sorted : (system.alphabet ++ events).Pairwise (· < ·)) :
    (events.foldl (·.addEvent ·) system).WellFormed ∧
      (events.foldl (·.addEvent ·) system).alphabet = system.alphabet ++ events ∧
      (events.foldl (·.addEvent ·) system).incidences = system.incidences ∧
      (events.foldl (·.addEvent ·) system).arcs = system.arcs ∧
      (events.foldl (·.addEvent ·) system).initial = system.initial := by
  induction events generalizing system with
  | nil => exact ⟨wf, by simp, rfl, rfl, rfl⟩
  | cons e events ih =>
    have last : (system.addEvent e).alphabet = system.alphabet ++ [e] :=
      insertSorted_of_last fun x member =>
        (List.pairwise_append.1 sorted).2.2 x member e List.mem_cons_self
    have next : ((system.addEvent e).alphabet ++ events).Pairwise (· < ·) := by
      rwa [last, List.append_assoc]
    obtain ⟨wf, alphabet, incidences, arcs, initial⟩ := ih (wf.addEvent e) next
    refine ⟨wf, ?_, incidences, arcs, initial⟩
    rw [List.foldl_cons, alphabet, last, List.append_assoc, List.singleton_append]

theorem exploring_blank (wf : ts.WellFormed) :
    Exploring ts { result := { system := blank ts } } [] ∧ (blank ts).initial = none ∧
      (blank ts).states = [] ∧ (blank ts).arcs = [] := by
  obtain ⟨blankWf, alphabet, incidences, arcs, initial⟩ := foldl_addEvent
    (TransitionSystem.WellFormed.empty s!"Limited unfolding of {ts.name}") wf.alphabet_sorted
  have states : (blank ts).states = [] := by
    rw [TransitionSystem.states, blank, incidences]; rfl
  have none : (blank ts).arcs = [] := arcs
  refine ⟨⟨rfl, rfl, by simp, ⟨blankWf, alphabet, states.symm, by simp, ?_, ?_⟩, by simp, by simp,
    by simp, by simp⟩, initial, states, none⟩
  · rw [none]; simp
  · rw [none]; simp

theorem steps_mono (arcs free : Nat) : steps arcs free ≤ steps arcs (free + 1) := by
  induction free with
  | zero => simp [steps]
  | succ free ih =>
    have more := Nat.mul_le_mul_left arcs ih
    simp only [steps] at *
    omega

def Walk.start (ts : TransitionSystem) (root : State) : Except Error Walk := do
  let (w, first) ← Walk.enter ts { result := { system := blank ts } } root
  let rooted ← w.result.system.setInitial first
  return { w with result.system := rooted }

theorem unfolding_eq (det : ts.isDeterministic = true) (initial : ts.initial = some root) :
    unfolding ts = (Walk.start ts root).bind fun w =>
      (Walk.run ts (steps ts.arcs.length ts.states.length) w).map (·.result) := by
  have deterministic : ts.checkDeterministic = .ok () :=
    TransitionSystem.checkDeterministic_eq_ok.2 det
  rw [unfolding, Walk.start, blank]
  simp only [deterministic, initial, bind, Except.bind]
  cases Walk.enter ts _ root with
  | error e => rfl
  | ok entered =>
    simp only
    cases entered.1.result.system.setInitial entered.2 with
    | error e => rfl
    | ok rooted =>
      simp only [pure, Except.pure]
      cases Walk.run ts _ _ <;> rfl

theorem exists_start (wf : ts.WellFormed) (known : root ∈ ts.states) :
    ∃ w x, Walk.start ts root = .ok w ∧
      Underway ts root x w [⟨root, x, ts.outgoing root⟩] fun _ => [] := by
  obtain ⟨exploring, none, noStates, noArcs⟩ := exploring_blank wf
  obtain ⟨next, x, entered, _, states, arcs, start, pushed⟩ := exploring.push known (by simp)
  simp only at entered states arcs start
  rw [noStates, List.nil_append] at states
  rw [noArcs] at arcs
  have listed : x ∈ next.states := by simp [states]
  obtain ⟨rooted, same⟩ : ∃ rooted, next.setInitial x = .ok rooted :=
    ⟨_, TransitionSystem.setInitial_eq_ok.2 ⟨listed, rfl⟩⟩
  have started : Walk.start ts root =
      .ok ⟨[(root, ts.outgoing root)], [(root, x)], ⟨rooted, [(x, root)]⟩⟩ := by
    simp [Walk.start, Walk.enter, entered, same, bind, Except.bind, pure, Except.pure]
  obtain ⟨_, rfl⟩ := TransitionSystem.setInitial_eq_ok.1 same
  refine ⟨_, x, started, { pushed with grown := { pushed.grown with
    wellFormed := pushed.grown.wellFormed.setInitial same } }, ?_, rfl, List.mem_singleton_self _⟩
  refine ⟨rfl, fun p member => ?_, fun y member => ?_, fun b member => ?_, .start rfl⟩
  · rw [List.mem_singleton.1 member]
    exact .nil
  · change y ∈ next.states at member
    rw [states, List.mem_singleton] at member
    subst member
    exact .nil
  · change b ∈ next.arcs at member
    simp [arcs] at member

/-- The walk has steps enough for the initial state and all that follows. -/
theorem remaining_start (wf : ts.WellFormed) (known : root ∈ ts.states) (x : State) :
    remaining ts [⟨root, x, ts.outgoing root⟩] ≤ steps ts.arcs.length ts.states.length := by
  have few : (ts.outgoing root).length ≤ ts.arcs.length :=
    wf.outgoing_filter root ▸ List.length_filter_le _ _
  obtain ⟨free, total⟩ : ∃ free, ts.states.length = free + 1 :=
    Nat.exists_eq_add_one.2 (List.length_pos_of_mem known)
  calc remaining ts [⟨root, x, ts.outgoing root⟩]
      = stay ts.arcs.length free (ts.outgoing root).length := by simp [remaining, total]
    _ ≤ steps ts.arcs.length free := steps_eq_stay .. ▸ stay_mono few
    _ ≤ steps ts.arcs.length ts.states.length := total ▸ steps_mono _ free

/-- A finished unfolding: whatever leaves a state has a copy at every copy of the state. -/
structure Unfolds (ts : TransitionSystem) (root : State) (u : Unfolding) (first : State)
    (trace : State → List Event) : Prop where
  grown : Grown ts u
  initial : u.system.initial = some first
  rootCopy : (first, root) ∈ u.copyOf
  complete : ∀ p ∈ u.copyOf, ∀ a ∈ ts.outgoing p.2,
    ∃ b ∈ u.system.arcs, b.source = p.1 ∧ IsCopy u.copyOf b a
  traced : Traced u.system first trace

/-- A deterministic system with an initial state has an unfolding, whose copies have ways. -/
theorem exists_charted (wf : ts.WellFormed) (det : ts.isDeterministic = true)
    (initial : ts.initial = some root) : ∃ u first way, unfolding ts = .ok u ∧
      Unfolds ts root u first (traceOf way) ∧ Charted ts root first u [] way := by
  have known : root ∈ ts.states := wf.initial_mem root initial
  obtain ⟨start, x, started, under⟩ := exists_start wf known
  obtain ⟨w, way, walked, done⟩ := under.run wf det (remaining_start wf known x)
  have charted := done.charted
  rw [done.exploring.onPath] at charted
  refine ⟨w.result, x, way, ?_, ⟨done.exploring.grown, done.initial, done.first,
    fun p member a edge => ?_, charted.traced done.exploring.grown⟩, charted⟩
  · rw [unfolding_eq det initial, started]
    simp [Except.bind, walked, Except.map]
  · exact (done.exploring.complete p member a edge).resolve_right (by simp)

theorem exists_unfolding (wf : ts.WellFormed) (det : ts.isDeterministic = true)
    (initial : ts.initial = some root) :
    ∃ u first trace, unfolding ts = .ok u ∧ Unfolds ts root u first trace := by
  obtain ⟨u, first, way, unfolded, unfolds, _⟩ := exists_charted wf det initial
  exact ⟨u, first, _, unfolded, unfolds⟩

/-! ### The unfolded system -/

def originalOf (u : Unfolding) (x : State) : State := (u.copyOf.lookup x).getD x

namespace Unfolds

variable (unfolds : Unfolds ts root u first trace)

include unfolds

theorem lookup_copyOf {x s : State} (copy : (x, s) ∈ u.copyOf) : u.copyOf.lookup x = some s :=
  (lookup_eq_some_iff_mem
    (unfolds.grown.states ▸ unfolds.grown.wellFormed.states_nodup)).2 copy

theorem originalOf_eq {x s : State} (copy : (x, s) ∈ u.copyOf) : u.originalOf x = s := by
  rw [originalOf, unfolds.lookup_copyOf copy]
  rfl

theorem mem_copyOf {x : State} (member : x ∈ u.system.states) :
    (x, u.originalOf x) ∈ u.copyOf := by
  rw [← unfolds.grown.states] at member
  obtain ⟨⟨y, s⟩, copy, rfl⟩ := List.mem_map.1 member
  rwa [unfolds.originalOf_eq copy]

theorem mem_states {x : State} (reached : (u.system.behaviour first).Reaches x) :
    x ∈ u.system.states := by
  refine LabelledGraph.Reaches.invariant (P := fun (x : State) => x ∈ u.system.states) reached
    (unfolds.grown.mem_states unfolds.rootCopy) ?_
  rintro _ _ _ _ _ ⟨b, arc, rfl, rfl, rfl⟩
  exact (unfolds.grown.wellFormed.arc_ends b arc).2

/-- Paths of the unfolding are paths of the system, and all of them. -/
theorem tracks (wf : ts.WellFormed) :
    LabelledGraph.Tracks (u.system.behaviour first) (ts.behaviour root) u.originalOf := by
  refine ⟨unfolds.originalOf_eq unfolds.rootCopy, ?_, ?_⟩
  · rintro _ _ _ _ ⟨b, arc, rfl, rfl, rfl⟩
    obtain ⟨a, member, copy⟩ := unfolds.grown.arcs b arc
    exact ⟨a, member, (unfolds.originalOf_eq copy.source).symm, copy.label.symm,
      (unfolds.originalOf_eq copy.target).symm⟩
  · rintro x _ _ reached ⟨a, member, source, rfl, rfl⟩
    have copied := unfolds.mem_copyOf (unfolds.mem_states reached)
    have edge : a ∈ ts.outgoing (u.originalOf x) := wf.mem_outgoing.2 ⟨member, source⟩
    obtain ⟨b, arc, rfl, copy⟩ := unfolds.complete _ copied a edge
    exact ⟨b.target, ⟨b, arc, rfl, copy.label, rfl⟩, unfolds.originalOf_eq copy.target⟩

/-- The arcs that leave reachable states have copies. -/
theorem exists_copied (wf : ts.WellFormed) {a : Arc} (arc : a ∈ ts.arcs)
    (reached : (ts.behaviour root).Reaches a.source) :
    ∃ b ∈ u.system.arcs, b.label = a.label ∧ b.location = a.location := by
  obtain ⟨w, path⟩ := reached
  obtain ⟨x, way, original⟩ := (unfolds.tracks wf).path_back path
  have copy := unfolds.mem_copyOf (unfolds.mem_states ⟨w, way⟩)
  rw [original] at copy
  obtain ⟨b, made, _, copied⟩ := unfolds.complete _ copy a (wf.mem_outgoing.2 ⟨arc, rfl⟩)
  exact ⟨b, made, copied.label, copied.location⟩

theorem isDeterministic : u.system.isDeterministic = true := by
  have wf := unfolds.grown.wellFormed
  apply TransitionSystem.isDeterministic_iff.2
  intro i member
  rw [wf.outgoing_eq i member]
  refine List.Nodup.map_on (fun b hb c hc label => ?_) (wf.arcs_nodup.filter _)
  simp only [List.mem_filter, beq_iff_eq] at hb hc
  exact unfolds.grown.deterministic b hb.1 c hc.1 (hb.2.trans hc.2.symm) label

end Unfolds

end NetSynthesis.Unfolding
