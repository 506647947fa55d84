import NetSynthesis.Proofs.AssembledNet
import NetSynthesis.Proofs.LabelledGraph
import NetSynthesis.Proofs.SynthesisRun

/-! Soundness of synthesis. The marking that gives the place of each region its tokens in a state
follows the arcs of the system: an arc can be fired because the regions are valid, and nothing else
can be fired because some region disables it. With regions for all pairs of states the marking also
determines the state. -/
namespace NetSynthesis.Synthesis

open NetSynthesis.Frame LabelledGraph

variable {f : Frame} {root : State} {run : Synthesis f} {languageOnly : Bool} {a : Assembly f.size}

theorem Solved.tracks (solved : Solved run languageOnly) (rooted : f.Rooted root)
    (made : a.MadeOf run.regions) : Tracks (f.graph.behaviour root) a.net.behaviour
      fun s => run.regions.map (f.tokens · s) := by
  have transition {e : Event} (known : e ∈ f.events) : (⟨e, e⟩ : Transition) ∈ a.net.transitions :=
    made.transitions_eq ▸ List.mem_map.2 ⟨e, known, rfl⟩
  have target {arc : Arc} (member : arc ∈ f.graph.arcs) (source : f.isReachable arc.source = true) :
      (run.regions.map fun r => f.tokens r arc.source + (f.weightOf r arc.label).effect) =
        run.regions.map (f.tokens · arc.target) := by
    apply List.map_congr_left
    intro r chosen
    have edge := rooted.wellFormed.mem_outgoing.2 ⟨member, rfl⟩
    exact ((solved.valid r chosen).step _ source arc edge).symm
  refine ⟨?_, ?_, ?_⟩
  · change run.regions.map (f.tokens · root) = a.net.initialMarking
    rw [made.initialMarking_eq]
    exact List.map_congr_left fun r _ => rooted.tokens_root r
  · rintro _ _ _ reached ⟨arc, member, rfl, rfl, rfl⟩
    have source := rooted.isReachable_iff_reaches.2 reached
    have edge := rooted.wellFormed.mem_outgoing.2 ⟨member, rfl⟩
    have known : arc.label ∈ f.events := rooted.wellFormed.labels_mem arc member
    refine ⟨⟨arc.label, arc.label⟩, transition known, rfl, ?_⟩
    exact (made.fire_iff rooted known arc.source).2
      ⟨fun r chosen => (solved.valid r chosen).enough _ source arc edge, target member source⟩
  · rintro s e k reached ⟨t, member, rfl, fired⟩
    have source := rooted.isReachable_iff_reaches.2 reached
    rw [made.transitions_eq] at member
    obtain ⟨e, known, rfl⟩ := List.mem_map.1 member
    obtain ⟨enough, rfl⟩ := (made.fire_iff rooted known s).1 fired
    by_cases leaves : ∃ arc ∈ f.graph.outgoing s, arc.label = e
    · obtain ⟨arc, edge, rfl⟩ := leaves
      obtain ⟨inside, rfl⟩ := rooted.wellFormed.mem_outgoing.1 edge
      exact ⟨arc.target, ⟨arc, inside, rfl, rfl, rfl⟩, (target inside source).symm⟩
    · have none : ∀ arc ∈ f.graph.outgoing s, arc.label ≠ e :=
        fun arc edge same => leaves ⟨arc, edge, same⟩
      obtain ⟨r, chosen, disables⟩ := solved.disabled s e source known none
      have short := (disables_iff.1 disables).2
      exact absurd (enough r chosen) (Int.not_le.2 short)

theorem Solved.markings_differ (solved : Solved run false) (rooted : f.Rooted root) {s t : State}
    (hs : (f.graph.behaviour root).Reaches s) (ht : (f.graph.behaviour root).Reaches t)
    (same : run.regions.map (f.tokens · s) = run.regions.map (f.tokens · t)) : s = t := by
  by_contra differ
  obtain ⟨r, chosen, separates⟩ := solved.separated rfl s t (rooted.isReachable_iff_reaches.2 hs)
    (rooted.isReachable_iff_reaches.2 ht) differ
  exact (separates_iff.1 separates).2.2 (List.map_inj_left.1 same r chosen)

/-- The net of a run that succeeds has the system for its marking graph, and the system has no
states that cannot be reached. -/
theorem net_isomorphic {solve : Solver} {goal : NetClass} {o : Options} (rooted : f.Rooted root)
    (answer : Synthesis.run solve f goal o = .ok run) (success : run.succeeded = true)
    (made : f.assemble run.regions = .ok a) :
    (f.graph.behaviour root).Isomorphic a.net.behaviour ∧
      ∀ s ∈ f.graph.states, (f.graph.behaviour root).Reaches s := by
  obtain ⟨_, solved⟩ := solved_of_run rooted answer success
  have tracks := solved.tracks rooted (madeOf_of_assemble made)
  refine ⟨tracks.isomorphic fun s t hs ht => solved.markings_differ rooted hs ht, ?_⟩
  exact fun s member => rooted.isReachable_iff_reaches.1 (solved.reachable rfl s member)

/-! ### Frames of systems -/

theorem exists_ofSystem {ts : TransitionSystem} (wf : ts.WellFormed)
    (initial : ts.initial = some root) :
    ∃ f, Frame.ofSystem ts = .ok f ∧ f.graph = ts ∧ f.Rooted root := by
  have known : ∀ s ∈ ts.initial, s ∈ ts.states := wf.initial_mem
  have tree : SpanningTree.of ts = .ok ⟨ts, ts.initial, .forward, known, _, rfl⟩ := dif_pos known
  refine ⟨⟨⟨ts, ts.initial, .forward, known, _, rfl⟩, rfl, _, rfl⟩, ?_, rfl, wf, initial⟩
  exact bind_eq_ok.2 ⟨_, tree, dif_pos rfl⟩

theorem start_of_ofSystem {ts : TransitionSystem} (framed : Frame.ofSystem ts = .ok f) :
    f.graph = ts ∧ f.tree.start = ts.initial := by
  obtain ⟨tree, built, framed⟩ := bind_eq_ok.1 framed
  rw [Frame.of] at framed
  split at framed
  · obtain rfl := Except.ok.inj framed
    rw [SpanningTree.of] at built
    split at built
    · obtain rfl := Except.ok.inj built
      exact ⟨rfl, rfl⟩
    · simp at built
  · simp at framed

theorem rooted_of_ofSystem {ts : TransitionSystem} (framed : Frame.ofSystem ts = .ok f)
    (wf : ts.WellFormed) : f.graph = ts ∧ ∀ root, ts.initial = some root → f.Rooted root := by
  obtain ⟨graph, start⟩ := start_of_ofSystem framed
  exact ⟨graph, fun root initial => ⟨graph ▸ wf, start.trans initial⟩⟩

/-! ### A system of two states -/

def toggle : TransitionSystem :=
  let up : Arc := ⟨"off", "up", "on", none⟩
  let down : Arc := ⟨"on", "down", "off", none⟩
  { initial := some "off"
    incidences := [⟨"off", [up], [down]⟩, ⟨"on", [down], [up]⟩]
    arcs := [up, down]
    alphabet := ["down", "up"] }

theorem toggle_wellFormed : toggle.WellFormed := by
  constructor <;> decide

def toggleFrame : Frame := ⟨⟨toggle, some "off", .forward, by decide, _, rfl⟩, rfl, _, rfl⟩

theorem toggleFrame_rooted : toggleFrame.Rooted "off" := ⟨toggle_wellFormed, rfl⟩

/-- A run that succeeds and has a net, if computing it says so. -/
theorem exists_of_check (f : Frame) (solve : Solver) (c : NetClass) (languageOnly : Bool)
    (check : ((Synthesis.run solve f c {} languageOnly).toOption.any fun r =>
      r.succeeded && (f.assemble r.regions).toOption.isSome) = true) :
    ∃ r, Synthesis.run solve f c {} languageOnly = .ok r ∧ r.succeeded = true ∧
      ∃ a, f.assemble r.regions = .ok a := by
  obtain ⟨r, answer, both⟩ := exists_of_any check
  obtain ⟨success, some⟩ := Bool.and_eq_true_iff.1 both
  cases made : f.assemble r.regions with
  | error e => simp [made, Except.toOption] at some
  | ok a => exact ⟨r, answer, success, a, made⟩

theorem net_isomorphic_toggle : ∃ r, Synthesis.run (fun _ => none) toggleFrame = .ok r ∧
    r.succeeded = true ∧ ∃ a, toggleFrame.assemble r.regions = .ok a ∧
      (toggleFrame.graph.behaviour "off").Isomorphic a.net.behaviour ∧
        ∀ s ∈ toggleFrame.graph.states, (toggleFrame.graph.behaviour "off").Reaches s := by
  obtain ⟨r, answer, success, a, made⟩ :=
    exists_of_check toggleFrame (fun _ => none) .all false (by decide +kernel)
  exact ⟨r, answer, success, a, made,
    net_isomorphic toggleFrame_rooted answer success made⟩

end NetSynthesis.Synthesis
