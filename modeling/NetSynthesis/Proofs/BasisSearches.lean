import NetSynthesis.Proofs.UsableAnswers

/-! What the searches with basis regions can do. Two states are told apart by a basis region if any
valid region tells them apart. An event is disabled by a candidate, with a side condition where that
is needed, if any valid region with the effect of a candidate or without effects disables it. -/
namespace NetSynthesis

open NetSynthesis.Frame

variable {f : Frame} {root s t : State} {e : Event} {memo : ParikhMemo} {solve : Solver}
  {candidates : List (Region f.size)} {r : Region f.size}

/-- The effect is that of one of some regions, or it is zero for all events. -/
def Frame.HasEffectAmong (f : Frame) (candidates : List (Region f.size)) (r : Region f.size) :
    Prop :=
  (∃ q ∈ candidates, q.effect = r.effect) ∨ ∀ x ∈ r.effect, x = 0

theorem Frame.hasEffectAmong_iff : f.HasEffectAmong candidates r ↔
    ∃ q ∈ candidates ++ [Region.trivial f.size], q.effect = r.effect := by
  have zero : (∀ x ∈ r.effect, x = 0) ↔ (Region.trivial f.size).effect = r.effect := by
    have zeros : (Region.trivial f.size).effect = List.replicate f.size 0 := by
      simp [Region.trivial, Region.effect, Weight.effect]
    rw [zeros, eq_comm, List.eq_replicate_iff, and_iff_right r.length_effect]
  rw [HasEffectAmong, zero]
  simp only [List.mem_append, List.mem_singleton, or_and_right, exists_or, exists_eq_left]

namespace Search

/-! ### State separation -/

/-- The search with basis regions has no answer for two states just if all valid regions have as
many tokens in one as in the other. Its answers are valid regions without side conditions. -/
theorem basicPure_decides (wf : f.graph.WellFormed) (remembers : f.Remembers memo)
    (hs : f.isReachable s = true) (ht : f.isReachable t = true) :
    ∃ basis memo', f.basis? memo = .ok (basis, memo') ∧ ∀ solve c ls o, ∃ answer,
      (Search.of f basis c ls o .basicPure).separating solve s t = .ok answer ∧
      (answer = none ↔ ∀ r, f.isValid r = true → f.tokens r s = f.tokens r t) ∧
      ∀ r ∈ answer, f.isValid r = true ∧ r.isPure = true ∧ f.tokens r s ≠ f.tokens r t := by
  obtain ⟨root, rooted⟩ := exists_rooted wf hs
  obtain ⟨memo', computed, _⟩ := basis?_eq wf remembers
  refine ⟨f.basis, memo', computed, fun solve c ls o => ?_⟩
  have sound (r : Region f.size)
      (found : (Search.of f f.basis c ls o .basicPure).separating solve s t = .ok (some r)) :
      f.isValid r = true ∧ r.isPure = true ∧ f.tokens r s ≠ f.tokens r t := by
    obtain ⟨valid, separates⟩ := separating_sound rooted .basicPure found
    exact ⟨isValid_iff.2 valid, isPure_of_mem_basicCandidates (mem_of_separating_basic found),
      (separates_iff.1 separates).2.2⟩
  obtain ⟨answer, answered⟩ : ∃ answer,
      (Search.of f f.basis c ls o .basicPure).separating solve s t = .ok answer := ⟨_, rfl⟩
  refine ⟨answer, answered, ?_, fun r found => sound r (Option.mem_def.1 found ▸ answered)⟩
  constructor
  · rintro rfl r valid
    by_contra differ
    obtain ⟨b, basis, separates⟩ := (isValid_iff.1 valid).exists_basis_separates rooted
      (separates_iff.2 ⟨hs, ht, differ⟩)
    have none := separating_basic_eq_none_iff.1 answered b basis
    exact Bool.false_ne_true (none.symm.trans separates)
  · intro same
    cases answer with
    | none => rfl
    | some r =>
      obtain ⟨valid, _, differ⟩ := sound r answered
      exact absurd (same r valid) differ

/-! ### Side conditions -/

theorem hasEffectAmong_of_disabling (rooted : f.Rooted root) {impure : Bool}
    (found : (Search.basic f.basis (f.basicCandidates f.basis) impure).disabling solve s e =
      .ok (some r)) : f.HasEffectAmong (f.basicCandidates f.basis) r := by
  rcases disabling_basic_eq_some found with ⟨member, _⟩ | ⟨_, reached, i, index, q, member, added⟩
  · exact .inl ⟨r, member, rfl⟩
  · have conditioned : f.Conditioned r := ⟨q, member, s, e, i, reached, index, added⟩
    exact hasEffectAmong_iff.2 (conditioned.exists_effect rooted)

/-- The search with side conditions has an answer for an event just if some valid region with the
effect of a candidate or without effects disables it, and the answer is such a region. -/
theorem basicImpure_decides (wf : f.graph.WellFormed) (remembers : f.Remembers memo)
    (hs : f.isReachable s = true) (known : e ∈ f.events) :
    ∃ basis memo', f.basis? memo = .ok (basis, memo') ∧ ∀ solve c ls o, ∃ answer,
      (Search.of f basis c ls o .basicImpure).disabling solve s e = .ok answer ∧
      (answer.isSome = true ↔ ∃ r, f.isValid r = true ∧
        f.HasEffectAmong (Search.of f basis c ls o .basicImpure).candidates r ∧
        f.disables r s e = true) ∧
      ∀ r ∈ answer, f.isValid r = true ∧
        f.HasEffectAmong (Search.of f basis c ls o .basicImpure).candidates r ∧
        f.disables r s e = true := by
  obtain ⟨root, rooted⟩ := exists_rooted wf hs
  obtain ⟨i, index, _⟩ := rooted.eventIndex?_of_mem known
  obtain ⟨memo', computed, _⟩ := basis?_eq wf remembers
  refine ⟨f.basis, memo', computed, fun solve c ls o => ?_⟩
  have sound (r : Region f.size)
      (found : (Search.of f f.basis c ls o .basicImpure).disabling solve s e = .ok (some r)) :
      f.isValid r = true ∧ f.HasEffectAmong (f.basicCandidates f.basis) r ∧
        f.disables r s e = true := by
    obtain ⟨valid, disables⟩ := disabling_basic_sound rooted found
    exact ⟨isValid_iff.2 valid, hasEffectAmong_of_disabling rooted found, disables⟩
  obtain ⟨answer, answered⟩ : ∃ answer,
      (Search.of f f.basis c ls o .basicImpure).disabling solve s e = .ok answer :=
    disabling_basic_total rooted known ..
  refine ⟨answer, answered, ?_, fun r found => sound r (Option.mem_def.1 found ▸ answered)⟩
  constructor
  · intro some
    obtain ⟨r, rfl⟩ := Option.isSome_iff_exists.1 some
    exact ⟨r, sound r answered⟩
  · rintro ⟨r, valid, among, disables⟩
    cases answer with
    | some q => rfl
    | none =>
      -- A region with the same effect has more tokens wherever the event is enabled, so that the
      -- side condition added to it would have been an answer.
      obtain ⟨q, member, same⟩ := hasEffectAmong_iff.1 among
      have fewer := (isValid_iff.1 valid).fewer_of_disables wf same disables
      have refused := (disabling_basic_eq_none rooted index answered).2 rfl hs q member
      exact absurd refused (withSideCondition?_ne_none fewer)

end Search

/-! ### The system that is not deterministic -/

namespace Synthesis

theorem fork_wellFormed : forkFrame.graph.WellFormed := by constructor <;> decide

/-- The two states after the choice have the same tokens in all regions. -/
theorem basicPure_decides_fork :
    (Search.of forkFrame forkFrame.basis .all [none, none] {} .basicPure).separating
      (fun _ => none) "l" "r" = .ok none ∧
    ∀ r, forkFrame.isValid r = true → forkFrame.tokens r "l" = forkFrame.tokens r "r" := by
  have remembers : forkFrame.Remembers [] := by simp [Remembers]
  obtain ⟨basis, _, computed, decides⟩ := Search.basicPure_decides (s := "l") (t := "r")
    fork_wellFormed remembers (by decide) (by decide)
  obtain ⟨_, own, _⟩ := basis?_eq fork_wellFormed remembers
  obtain ⟨rfl, _⟩ := Prod.mk.inj (Except.ok.inj (own.symm.trans computed))
  obtain ⟨answer, answered, none_iff, _⟩ := decides (fun _ => none) .all [none, none] {}
  have none : (Search.of forkFrame forkFrame.basis .all [none, none] {} .basicPure).separating
      (fun _ => none) "l" "r" = .ok none := by decide +kernel
  exact ⟨none, none_iff.1 (Except.ok.inj (answered.symm.trans none))⟩

/-- With a side condition the loop is disabled after the choice. -/
theorem basicImpure_decides_fork : ∃ r, forkFrame.isValid r = true ∧
    (Search.of forkFrame forkFrame.basis .all [none, none] {} .basicImpure).disabling
      (fun _ => none) "l" "stay" = .ok (some r) ∧ forkFrame.disables r "l" "stay" = true := by
  have remembers : forkFrame.Remembers [] := by simp [Remembers]
  obtain ⟨basis, _, computed, decides⟩ := Search.basicImpure_decides (s := "l") (e := "stay")
    fork_wellFormed remembers (by decide) (by decide)
  obtain ⟨_, own, _⟩ := basis?_eq fork_wellFormed remembers
  obtain ⟨rfl, _⟩ := Prod.mk.inj (Except.ok.inj (own.symm.trans computed))
  obtain ⟨answer, answered, some_iff, sound⟩ := decides (fun _ => none) .all [none, none] {}
  have some := some_iff.2 ⟨⟨[⟨1, 0⟩, ⟨1, 1⟩], 1, rfl⟩, by decide, by
    exact .inl ⟨⟨[⟨1, 0⟩, ⟨0, 0⟩], 1, rfl⟩, by decide +kernel, rfl⟩, by decide⟩
  obtain ⟨r, rfl⟩ := Option.isSome_iff_exists.1 some
  obtain ⟨valid, _, disables⟩ := sound r rfl
  exact ⟨r, valid, answered, disables⟩

end Synthesis

end NetSynthesis
