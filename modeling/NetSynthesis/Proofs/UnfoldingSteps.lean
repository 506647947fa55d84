import NetSynthesis.Proofs.UnfoldingTree

/-! The walk of an unfolding, step by step. However often a state is entered again, it is on the
stack once at most, and a copy is at hand for just the states on the stack. No state and no arc that
the walk adds is refused, and in the end the stack is empty. -/
namespace NetSynthesis.Unfolding

variable {ts : TransitionSystem} {w : Walk} {root first : State} {trail : List Stay}
  {way : State → ArcPath}

/-- The states on the stack are different, and they are those with a copy on the current path. -/
structure Walk.Stacked (w : Walk) : Prop where
  distinct : (w.stack.map (·.1)).Nodup
  keys : w.onPath.map (·.1) = w.stack.map (·.1)

theorem Exploring.stacked (exploring : Exploring ts w trail) : w.Stacked := by
  constructor
  · rw [exploring.stack, List.map_map]
    exact exploring.distinct
  · rw [exploring.stack, exploring.onPath, List.map_map, List.map_map]
    rfl

/-- A step would fail with the failure to add a state or an arc, or with a missing copy. -/
theorem Underway.exists_step (wf : ts.WellFormed) (det : ts.isDeterministic = true)
    (under : Underway ts root first w trail way) (unfinished : w.stack ≠ []) :
    ∃ next, w.step ts = .ok next := by
  cases trail with
  | nil => exact absurd under.exploring.stack unfinished
  | cons p below =>
    obtain ⟨next, _, _, stepped, _⟩ := under.step wf det
    exact ⟨next, stepped⟩

/-- The walk that unfolds a deterministic system succeeds with all its steps. After any number of
them the stack is in order, and after as many as are allowed it is empty. -/
theorem walk_ends (wf : ts.WellFormed) (det : ts.isDeterministic = true) :
    ∃ u, unfolding ts = .ok u ∧ ∀ root, ts.initial = some root →
      ∃ start, Walk.start ts root = .ok start ∧
        (∀ n, ∃ w, Walk.run ts n start = .ok w ∧ w.Stacked ∧
          (w.stack ≠ [] → ∃ next, w.step ts = .ok next)) ∧
        ∃ w, Walk.run ts (steps ts.arcs.length ts.states.length) start = .ok w ∧
          w.stack = [] ∧ w.result = u := by
  cases initial : ts.initial with
  | none =>
    have deterministic := TransitionSystem.checkDeterministic_eq_ok.2 det
    refine ⟨{ system := blank ts }, ?_, by simp⟩
    rw [unfolding, deterministic, initial]
    rfl
  | some root =>
    have known : root ∈ ts.states := wf.initial_mem root initial
    obtain ⟨start, x, started, under⟩ := exists_start wf known
    obtain ⟨w, way, walked, done⟩ := under.run wf det (remaining_start wf known x)
    refine ⟨w.result, ?_, ?_⟩
    · rw [unfolding_eq det initial, started]
      simp [Except.bind, walked, Except.map]
    · intro other same
      obtain rfl := Option.some.inj same
      refine ⟨start, started, fun n => ?_, w, walked, done.exploring.stack, rfl⟩
      obtain ⟨w', trail', way', made, next, _⟩ := under.run_steps wf det n
      exact ⟨w', made, next.exploring.stacked, next.exists_step wf det⟩

theorem walk_ends_detour : detour.WellFormed ∧ detour.isDeterministic = true ∧
    ∃ u, unfolding detour = .ok u ∧ ∀ root, detour.initial = some root →
      ∃ start, Walk.start detour root = .ok start ∧
        (∀ n, ∃ w, Walk.run detour n start = .ok w ∧ w.Stacked ∧
          (w.stack ≠ [] → ∃ next, w.step detour = .ok next)) ∧
        ∃ w, Walk.run detour (steps detour.arcs.length detour.states.length) start = .ok w ∧
          w.stack = [] ∧ w.result = u :=
  have wf : detour.WellFormed := by constructor <;> decide
  have det : detour.isDeterministic = true := by decide
  ⟨wf, det, walk_ends wf det⟩

end NetSynthesis.Unfolding
