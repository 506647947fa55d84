import NetSynthesis.Proofs.ProgramExactness

/-! What a chain of searches answers with. Only the search by programs looks at its answers again.
The others need not: what they list is valid, and where a strategy might answer with a region out of
the class, or with one that takes tokens at two locations, it is refused. -/
namespace NetSynthesis

open NetSynthesis.Frame

variable {f : Frame} {solve : Solver} {c : NetClass} {ls : Locations} {o : Options}
  {r : Region f.size} {s t : State} {e : Event}

namespace Search

variable {search : Search f}

theorem isReachable_of_separating (found : search.separating solve s t = .ok (some r)) :
    f.isReachable s = true := by
  obtain ⟨q, separates⟩ : ∃ q, f.separates q s t = true := by
    cases search with
    | basic basis candidates impure =>
      obtain ⟨q, first, _⟩ := Option.map_eq_some_iff.1 (Except.ok.inj found)
      have separates := List.find?_some first
      exact ⟨q, separates⟩
    | plain candidates =>
      have separates := List.find?_some (Except.ok.inj found)
      exact ⟨r, separates⟩
    | programs c ls limit =>
      obtain ⟨_, _, _, _, solution⟩ := exists_of_separating_programs found
      exact ⟨r, (solution?_eq_some solution).2.2⟩
  exact (separates_iff.1 separates).1

theorem isReachable_of_disabling (found : search.disabling solve s e = .ok (some r)) :
    f.isReachable s = true := by
  cases search with
  | basic basis candidates impure =>
    rcases disabling_basic_eq_some found with ⟨_, disables⟩ | ⟨_, reached, _⟩
    · exact (disables_iff.1 disables).1
    · exact reached
  | plain candidates => exact (disables_iff.1 (firstDisabling_eq_some found).2).1
  | programs c ls limit => exact (exists_of_disabling_programs found).1

end Search

namespace SearchChain

/-- Whatever a solver says within the ranges of the variables, the regions that a chain answers with
pass the last look and solve the problem. -/
theorem answers_pass (wf : f.graph.WellFormed) (located : f.locations = .ok ls)
    (inRange : solve.InRange) :
    (∀ s t r, (of f f.basis c ls o).separating solve s t = .ok (some r) →
      f.Passes c ls r ∧ f.separates r s t = true) ∧
    ∀ s, ∀ e ∈ f.events, ∀ r, (of f f.basis c ls o).disabling solve s e = .ok (some r) →
      f.Passes c ls r ∧ f.disables r s e = true := by
  have length := (locations_uniform located).1
  have passes {r : Region f.size} (valid : f.Valid r) (obtainable : f.Obtainable c ls o r) :
      f.Passes c ls r := (passes_iff length).2 ⟨valid, obtainable.inClass⟩
  constructor
  · intro s t r found
    obtain ⟨_, _, answer⟩ := firstSome_eq_some found
    obtain ⟨root, rooted⟩ := exists_rooted wf (Search.isReachable_of_separating answer)
    obtain ⟨valid, separates⟩ := separating_sound rooted found
    exact ⟨passes valid (obtainable_of_separating inRange found), separates⟩
  · intro s e _ r found
    obtain ⟨_, _, answer⟩ := firstSome_eq_some found
    obtain ⟨root, rooted⟩ := exists_rooted wf (Search.isReachable_of_disabling answer)
    obtain ⟨valid, disables⟩ := disabling_sound rooted found
    exact ⟨passes valid (obtainable_of_disabling inRange found), disables⟩

end SearchChain

/-! ### A system that is not deterministic -/

namespace Synthesis

def fork : TransitionSystem :=
  let stay : Arc := ⟨"s", "stay", "s", none⟩
  let left : Arc := ⟨"s", "go", "l", none⟩
  let right : Arc := ⟨"s", "go", "r", none⟩
  { initial := some "s"
    incidences := [⟨"s", [stay, left, right], [stay]⟩, ⟨"l", [], [left]⟩, ⟨"r", [], [right]⟩]
    arcs := [stay, left, right]
    alphabet := ["go", "stay"] }

def forkFrame : Frame := ⟨⟨fork, some "s", .forward, by decide, _, rfl⟩, rfl, _, rfl⟩

/-- After the choice the loop is disabled by a side condition, for its event has no effect. -/
theorem answers_pass_fork : ∃ r : Region forkFrame.size,
    (SearchChain.of forkFrame forkFrame.basis .all [none, none] {}).disabling (fun _ => none) "l"
      "stay" = .ok (some r) ∧ r.isPure = false ∧ forkFrame.Passes .all [none, none] r ∧
      forkFrame.disables r "l" "stay" = true := by
  have wf : forkFrame.graph.WellFormed := by constructor <;> decide
  have located : forkFrame.locations = .ok [none, none] := rfl
  have found : (SearchChain.of forkFrame forkFrame.basis .all [none, none] {}).disabling
      (fun _ => none) "l" "stay" = .ok (some ⟨[⟨1, 0⟩, ⟨1, 1⟩], 1, rfl⟩) := by decide +kernel
  obtain ⟨_, disabling⟩ := SearchChain.answers_pass (c := .all) (o := {}) wf located
    (fun p x answer => absurd answer (Option.some_ne_none x).symm)
  exact ⟨_, found, by decide, disabling "l" "stay" (by decide) _ found⟩

end Synthesis

end NetSynthesis
