import NetSynthesis.Proofs.SynthesizedNet
import NetSynthesis.Proofs.UnfoldedSystem

/-! Soundness of synthesis up to the language. The net follows the unfolding of a system, whose
copies follow the system itself, so that all three have the same words. -/
namespace NetSynthesis

open LabelledGraph Unfolding

variable {ts : TransitionSystem} {root : State} {solve : Solver} {goal : NetClass} {o : Options}
  {f : Frame} {run : Synthesis f} {a : Assembly f.size}

theorem exists_ofLanguage (wf : ts.WellFormed) (det : ts.isDeterministic = true)
    (initial : ts.initial = some root) : ∃ u first trace f, Unfolds ts root u first trace ∧
      Frame.ofLanguage ts = .ok f ∧ f.graph = u.system ∧ f.Rooted first := by
  obtain ⟨u, first, trace, unfolded, unfolds⟩ := exists_unfolding wf det initial
  obtain ⟨f, framed, graph, rooted⟩ :=
    Synthesis.exists_ofSystem unfolds.grown.wellFormed unfolds.initial
  exact ⟨u, first, trace, f, unfolds, bind_eq_ok.2 ⟨u, unfolded, framed⟩, graph, rooted⟩

theorem synthesizeLanguage_eq_ok (answer : synthesizeLanguage solve ts goal o = .ok ⟨f, run⟩) :
    Frame.ofLanguage ts = .ok f ∧ Synthesis.run solve f goal o true = .ok run := by
  rw [synthesizeLanguage] at answer
  cases framed : Frame.ofLanguage ts with
  | error e => simp [framed] at answer
  | ok g =>
    cases ran : Synthesis.run solve g goal o true with
    | error e => simp [framed, ran, Except.map] at answer
    | ok r =>
      simp only [framed, ran, Except.map, Except.ok.injEq, Sigma.mk.injEq] at answer
      obtain ⟨rfl, same⟩ := answer
      obtain rfl := eq_of_heq same
      exact ⟨rfl, ran⟩

/-- The net of a run that succeeds can fire the words of the system, and no others. -/
theorem net_language_eq (wf : ts.WellFormed) (det : ts.isDeterministic = true)
    (initial : ts.initial = some root)
    (answer : synthesizeLanguage solve ts goal o = .ok ⟨f, run⟩) (success : run.succeeded = true)
    (made : f.assemble run.regions = .ok a) :
    a.net.behaviour.language = (ts.behaviour root).language := by
  obtain ⟨u, first, trace, g, unfolds, framed, graph, rooted⟩ := exists_ofLanguage wf det initial
  obtain ⟨same, ran⟩ := synthesizeLanguage_eq_ok answer
  obtain rfl : g = f := Except.ok.inj (framed.symm.trans same)
  obtain ⟨_, solved⟩ := Synthesis.solved_of_run rooted ran success
  have net := (solved.tracks rooted (Frame.madeOf_of_assemble made)).language_eq
  have copies := (unfolds.tracks wf).language_eq
  rw [graph] at net
  rw [net, copies]

theorem net_language_eq_toggle : ∃ f, ∃ r : Synthesis f,
    synthesizeLanguage (fun _ => none) Synthesis.toggle = .ok ⟨f, r⟩ ∧ r.succeeded = true ∧
      ∃ a, f.assemble r.regions = .ok a ∧
        a.net.behaviour.language = (Synthesis.toggle.behaviour "off").language := by
  have check : ((synthesizeLanguage (fun _ => none) Synthesis.toggle).toOption.any fun p =>
      p.2.succeeded && (p.1.assemble p.2.regions).toOption.isSome) = true := by decide +kernel
  cases answer : synthesizeLanguage (fun _ => none) Synthesis.toggle with
  | error e => simp [answer, Except.toOption] at check
  | ok p =>
    obtain ⟨f, r⟩ := p
    cases made : f.assemble r.regions with
    | error e => simp [answer, made, Except.toOption] at check
    | ok a =>
      have success : r.succeeded = true := by simpa [answer, made, Except.toOption] using check
      exact ⟨f, r, rfl, success, a, made,
        net_language_eq Synthesis.toggle_wellFormed (by decide) rfl answer success made⟩

end NetSynthesis
