import NetSynthesis.Proofs.FailureReports
import NetSynthesis.Proofs.RunCompleteness
import NetSynthesis.Proofs.WordRegions
import NetSynthesis.WordSearch

/-! Which words are found solvable. With an exact solver a run has a result, and it succeeds just if
every problem can be solved by a region that some search may answer with; a word is found solvable
just if all steps that it does not take can be prevented. Solvable words are therefore closed under
other names of their letters, under suffixes and, without a bound on tokens, under prefixes. -/
namespace NetSynthesis

variable {f : Frame} {root : State} {word : List Event} {c : NetClass} {ls : Locations}
  {o : Options} {solve : Solver} {languageOnly : Bool}

/-- With an exact solver a run without a budget has a result, and it succeeds just if for every
problem there is a region that some search may answer with. -/
theorem Synthesis.exists_run_iff (rooted : f.Rooted root) (located : f.locations = .ok ls)
    (exactly : solve.Exact) (representable : c.Representable o.weightLimit)
    (budget : o.budget = none) (initial : f.graph.initial = some root)
    (deterministic : f.graph.isDeterministic = true) :
    ∃ run, Synthesis.run solve f c o languageOnly = .ok run ∧
      (run.succeeded = true ↔ Answerable f c ls o languageOnly) := by
  obtain ⟨run, answer⟩ : ∃ run, Synthesis.run solve f c o languageOnly = .ok run :=
    run_total rooted initial deterministic located representable.convertible budget
  refine ⟨run, answer, fun success => ?_, fun answerable => ?_⟩
  · obtain ⟨_, solved⟩ := solved_of_run rooted answer success
    obtain ⟨ls', located', gathered⟩ := gathered_of_run rooted exactly.inRange answer
    obtain rfl : ls = ls' := Except.ok.inj (located.symm.trans located')
    refine ⟨fun s e found known none => ?_, fun both s t hs ht differ => ?_, solved.reachable⟩
    · obtain ⟨r, member, disables⟩ := solved.disabled s e found known none
      exact ⟨r, gathered.obtainable r member, disables⟩
    · obtain ⟨r, member, separates⟩ := solved.separated both s t hs ht differ
      exact ⟨r, gathered.obtainable r member, separates⟩
  · obtain ⟨other, same, success⟩ :=
      exists_run_of_answerable rooted located exactly representable budget initial
      deterministic answerable
    rwa [Except.ok.inj (answer.symm.trans same)]

theorem Frame.Spells.answerable_iff (spells : f.Spells root word) (unlocated : ∀ l ∈ ls, l = none)
    (representable : c.Representable o.weightLimit) :
    Synthesis.Answerable f c ls o true ↔ WordSolvable c o.weightLimit word := by
  constructor
  · intro answerable v e shorter member off
    obtain ⟨s, path, found⟩ := spells.exists_state shorter
    rw [← spells.prevents_iff unlocated representable member path]
    refine answerable.events s e found ((spells.mem_events e).2 member) fun a edge label => ?_
    exact off ((spells.enables_iff path).1 ⟨a, edge, label⟩)
  · intro solvable
    refine ⟨fun s e found known none => ?_, by simp, by simp⟩
    obtain ⟨v, path, shorter⟩ := spells.exists_prefix found
    have member := (spells.mem_events e).1 known
    rw [spells.prevents_iff unlocated representable member path]
    refine solvable v e shorter member fun longer => ?_
    obtain ⟨a, edge, label⟩ := (spells.enables_iff path).2 longer
    exact none a edge label

namespace WordSearch

/-- A word is found solvable just if all steps that it does not take can be prevented. -/
theorem isSolvable_eq (exactly : solve.Exact) (representable : c.Representable o.weightLimit)
    (budget : o.budget = none) (word : Word) : ∃ b, isSolvable solve word c o = .ok b ∧
      (b = true ↔ WordSolvable c o.weightLimit word) := by
  obtain ⟨ts, f, root, made, framed, spells⟩ := exists_spells word
  obtain ⟨run, answer, success⟩ := Synthesis.exists_run_iff
    spells.rooted spells.located exactly representable budget spells.initial spells.deterministic
  refine ⟨run.succeeded, bind_eq_ok.2 ⟨ts, made, ?_⟩, success.trans
    (spells.answerable_iff (by simp) representable)⟩
  rw [synthesizeLanguage]
  simp only [framed, answer, Except.map]
  rfl

section Closure

variable (exactly : solve.Exact) (representable : c.Representable o.weightLimit)
  (budget : o.budget = none)

include exactly representable budget

theorem isSolvable_eq_true_iff {word : Word} :
    isSolvable solve word c o = .ok true ↔ WordSolvable c o.weightLimit word := by
  obtain ⟨b, answer, means⟩ := isSolvable_eq exactly representable budget word
  rw [answer, ← means, Except.ok.injEq]

theorem isSolvable_map {word : Word} {σ : Event → Event}
    (injective : Set.InjOn σ { e | e ∈ word }) :
    isSolvable solve (word.map σ) c o = isSolvable solve word c o := by
  obtain ⟨b, answer, means⟩ := isSolvable_eq exactly representable budget word
  obtain ⟨b', answer', means'⟩ := isSolvable_eq exactly representable budget (word.map σ)
  rw [answer, answer', Except.ok.injEq, Bool.eq_iff_iff, means, means']
  exact WordSolvable.map_iff injective

end Closure

end WordSearch

end NetSynthesis
