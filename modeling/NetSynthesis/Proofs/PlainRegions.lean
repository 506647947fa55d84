import NetSynthesis.Proofs.ProgramExactness

/-! The search for plain and pure regions leaves none out. It looks at one number of initial tokens
for each effect only, the least with which the region is valid. Fewer tokens never put a region over
a bound and never enable an event, and they do not matter for telling states apart. -/
namespace NetSynthesis

open IntVector

variable {f : Frame} {root : State} {bound : Option Nat} {s t : State} {e : Event}

/-! ### Pure regions and their effects -/

theorem Weight.ofEffect_effect {w : Weight} (pure : w.forward = 0 ∨ w.backward = 0) :
    Weight.ofEffect w.effect = w := by
  obtain ⟨b, g⟩ := w
  simp only [Weight.ofEffect, Weight.effect, Weight.mk.injEq] at pure ⊢
  omega

namespace Region

variable {n : Nat} {r : Region n}

/-- A pure region is made up of its effect and its initial tokens. -/
theorem ofEffect_effect (pure : r.isPure = true) : ofEffect n r.effect r.initial = r := by
  obtain ⟨weights, initial, rfl⟩ := r
  rw [isPure, List.all_eq_true] at pure
  rw [ofEffect, Region.mk.injEq]
  refine ⟨List.ext_getElem (by simp) fun i _ inside => ?_, rfl⟩
  have weight : weights[i].forward = 0 ∨ weights[i].backward = 0 := by
    simpa using pure _ (List.getElem_mem inside)
  simp [effect, inside, Weight.ofEffect_effect weight]

theorem effect_range (plain : r.isPlain = true) : ∀ x ∈ r.effect, -1 ≤ x ∧ x ≤ 1 := by
  intro x member
  obtain ⟨w, inside, rfl⟩ := List.mem_map.1 member
  rw [isPlain, List.all_eq_true] at plain
  have small : w.forward ≤ 1 ∧ w.backward ≤ 1 := by simpa using plain w inside
  simp only [Weight.effect]
  omega

theorem backward_of_effect (pure : r.isPure = true) {w : Weight} (member : w ∈ r.weights)
    (free : w.effect = 0) : w.backward = 0 := by
  rw [isPure, List.all_eq_true] at pure
  have weight : w.forward = 0 ∨ w.backward = 0 := by simpa using pure w member
  simp only [Weight.effect] at free
  omega

end Region

namespace Frame

variable {r : Region f.size}

/-! ### The least marking -/

/-- Plain and pure regions with no more tokens than a bound anywhere. -/
structure PlainPure (f : Frame) (bound : Option Nat) (r : Region f.size) : Prop where
  valid : f.isValid r = true
  plain : r.isPlain = true
  pure : r.isPure = true
  bounded : ∀ k ∈ bound, ∀ s, f.isReachable s = true → f.tokens r s ≤ k

theorem withNormalMarking_ofEffect (pure : r.isPure = true) :
    f.withNormalMarking (.ofEffect f.size r.effect) = f.withNormalMarking r := by
  conv_rhs => rw [← Region.ofEffect_effect pure]
  rfl

theorem Valid.tokens_le (valid : f.Valid r) (s : State) :
    f.tokens (f.withNormalMarking r) s ≤ f.tokens r s := by
  have least := valid.normalMarking_le
  rw [withNormalMarking, tokens_withInitial, tokens, Region.tokensAfter]
  omega

theorem PlainPure.withNormalMarking (rooted : f.Rooted root) (allowed : f.PlainPure bound r) :
    f.PlainPure bound (f.withNormalMarking r) where
  valid := isValid_iff.2 (rooted.valid_withNormalMarking
    ((isValid_iff.1 allowed.valid).consistent rooted))
  plain := allowed.plain
  pure := allowed.pure
  bounded := fun k given s found =>
    ((isValid_iff.1 allowed.valid).tokens_le s).trans (allowed.bounded k given s found)

/-! ### The candidates -/

theorem mem_signVectors {n : Nat} {v : IntVector} :
    v ∈ signVectors n ↔ v.length = n ∧ ∀ x ∈ v, -1 ≤ x ∧ x ≤ 1 := by
  refine ⟨fun member => ⟨length_signVectors member, range_signVectors member⟩, ?_⟩
  rintro ⟨rfl, range⟩
  induction v with
  | nil => simp [signVectors]
  | cons x v ih =>
    obtain ⟨sign, rest⟩ := List.forall_mem_cons.1 range
    refine List.mem_flatMap.2 ⟨x, ?_, List.mem_map_of_mem (ih rest)⟩
    simp only [List.mem_cons, List.not_mem_nil, or_false]
    omega

theorem mem_byConnections {n : Nat} {vectors : List IntVector} {v : IntVector}
    (length : v.length = n) :
    (v ∈ (List.range n).flatMap fun k => vectors.filter fun w => w.countP (· != 0) == k + 1) ↔
      v ∈ vectors ∧ ∃ x ∈ v, x ≠ 0 := by
  have some : (∃ x ∈ v, x ≠ 0) ↔ 0 < v.countP (· != 0) := by simp [List.countP_pos_iff]
  have most : v.countP (· != 0) ≤ n := length ▸ List.countP_le_length
  rw [some, List.mem_flatMap]
  constructor
  · rintro ⟨k, _, counted⟩
    obtain ⟨member, number⟩ := List.mem_filter.1 counted
    exact ⟨member, eq_of_beq number ▸ Nat.succ_pos k⟩
  · rintro ⟨member, connected⟩
    refine ⟨v.countP (· != 0) - 1, List.mem_range.2 (by omega), List.mem_filter.2 ⟨member, ?_⟩⟩
    rw [beq_iff_eq]
    omega

/-- The candidates are the plain and pure regions within the bound that have their normal marking,
apart from the trivial one. -/
theorem mem_plainCandidates_iff (rooted : f.Rooted root) : r ∈ f.plainCandidates bound ↔
    f.PlainPure bound r ∧ f.withNormalMarking r = r ∧ ∃ x ∈ r.effect, x ≠ 0 := by
  constructor
  · intro member
    obtain ⟨pure, plain, bounded⟩ := mem_plainCandidates member
    have valid := isValid_iff.2 (rooted.valid_plainCandidates member)
    refine ⟨⟨valid, plain, pure, fun k given => (bound_le_iff rooted).1 (bounded k given)⟩, ?_⟩
    obtain ⟨v, sorted, rfl⟩ := List.mem_map.1 (List.mem_filter.1 member).1
    obtain ⟨_, _, counted⟩ := List.mem_flatMap.1 sorted
    have length := length_signVectors (List.mem_filter.1 (List.mem_filter.1 counted).1).1
    have effect : (f.withNormalMarking (.ofEffect f.size v)).effect = v :=
      Region.effect_ofEffect length 0
    rw [effect]
    exact ⟨rfl, ((mem_byConnections length).1 sorted).2⟩
  · rintro ⟨allowed, normal, connected⟩
    have length : r.effect.length = f.size := r.length_effect
    have consistent := (isValid_iff.1 allowed.valid).consistent rooted
    have sign := mem_signVectors.2 ⟨length, Region.effect_range allowed.plain⟩
    have cycles : (f.tree.chords.map f.edgeVector).all (r.effect.dot · == 0) = true := by
      rw [List.all_map, List.all_eq_true]
      exact fun a chord => beq_iff_eq.2 (consistent a chord)
    have vector : r.effect ∈ (signVectors f.size).filter fun v =>
        (f.tree.chords.map f.edgeVector).all (v.dot · == 0) := List.mem_filter.2 ⟨sign, cycles⟩
    have sorted := (mem_byConnections length).2 ⟨vector, connected⟩
    refine List.mem_filter.2 ⟨List.mem_map.2 ⟨r.effect, sorted, ?_⟩, ?_⟩
    · rw [withNormalMarking_ofEffect allowed.pure, normal]
    · rw [Option.all_eq_true]
      exact fun k given => decide_eq_true ((bound_le_iff rooted).2 (allowed.bounded k given))

/-! ### Answers -/

/-- What the least marking solves too, and a trivial region does not, is solved by a candidate if
by any plain and pure region. -/
theorem find?_plainCandidates (rooted : f.Rooted root) {p : Region f.size → Bool}
    (normal : ∀ r, f.Valid r → p r = true → p (f.withNormalMarking r) = true)
    (connected : ∀ r, f.Valid r → r.isPure = true → p r = true → ∃ x ∈ r.effect, x ≠ 0) :
    ((f.plainCandidates bound).find? p).isSome = true ↔ ∃ r, f.PlainPure bound r ∧ p r = true := by
  rw [List.find?_isSome]
  constructor
  · rintro ⟨r, member, solves⟩
    exact ⟨r, ((mem_plainCandidates_iff rooted).1 member).1, solves⟩
  · rintro ⟨r, allowed, solves⟩
    have valid := isValid_iff.1 allowed.valid
    exact ⟨f.withNormalMarking r, (mem_plainCandidates_iff rooted).2
      ⟨allowed.withNormalMarking rooted, rfl, connected r valid allowed.pure solves⟩,
      normal r valid solves⟩

theorem Valid.disables_withNormalMarking (valid : f.Valid r) (disables : f.disables r s e = true) :
    f.disables (f.withNormalMarking r) s e = true := by
  obtain ⟨found, few⟩ := disables_iff.1 disables
  exact disables_iff.2 ⟨found, (valid.tokens_le s).trans_lt few⟩

theorem Valid.exists_effect (valid : f.Valid r) (pure : r.isPure = true)
    (disables : f.disables r s e = true) : ∃ x ∈ r.effect, x ≠ 0 := by
  by_contra none
  obtain ⟨found, few⟩ := disables_iff.1 disables
  have free : (f.weightOf r e).backward = 0 := by
    rw [weightOf]
    cases f.eventIndex? e with
    | none => rfl
    | some i =>
      rw [Option.map_some, Option.getD_some, Region.weightAt]
      cases at_i : r.weights[i]? with
      | none => rfl
      | some w =>
        have member := List.mem_of_getElem? at_i
        refine Region.backward_of_effect pure member ?_
        by_contra effect
        exact none ⟨w.effect, List.mem_map_of_mem member, effect⟩
  have nonneg := valid.nonneg s found
  omega

theorem exists_effect_of_separates (separates : f.separates r s t = true) :
    ∃ x ∈ r.effect, x ≠ 0 := by
  by_contra none
  have zeros : ∀ x ∈ r.effect, x = 0 := by
    intro x member
    by_contra differ
    exact none ⟨x, member, differ⟩
  have flat (v : State) : f.tokens r v = r.initial := by
    rw [tokens, Region.tokensAfter, dot_comm, dot_of_zeros _ _ zeros, Int.add_zero]
  exact (separates_iff.1 separates).2.2 ((flat s).trans (flat t).symm)

end Frame

open NetSynthesis.Frame

/-- The search for plain and pure regions answers with a region if and only if there is any plain
and pure region, whatever its initial tokens, that keeps to the bound and solves the problem. -/
theorem Search.plain_exhaustive {f : Frame} (wf : f.graph.WellFormed) {s : State}
    (found : f.isReachable s = true) (solve : Solver) (basis : List (Region f.size)) (c : NetClass)
    (ls : Locations) (o : Options) :
    (∀ e ∈ f.events, ∃ answer,
      (Search.of f basis c ls o .plainPure).disabling solve s e = .ok answer ∧
        (answer.isSome = true ↔ ∃ r, f.PlainPure c.bound r ∧ f.disables r s e = true)) ∧
      ∀ t, f.isReachable t = true → ∃ answer,
        (Search.of f basis c ls o .plainPure).separating solve s t = .ok answer ∧
          (answer.isSome = true ↔ ∃ r, f.PlainPure c.bound r ∧ f.separates r s t = true) := by
  obtain ⟨root, rooted⟩ := exists_rooted wf found
  refine ⟨fun e known => ⟨_, firstDisabling_eq rooted known _ s, ?_⟩, fun t _ => ⟨_, rfl, ?_⟩⟩
  · exact find?_plainCandidates rooted (fun _ => Valid.disables_withNormalMarking)
      fun _ valid pure disables => valid.exists_effect pure disables
  · refine find?_plainCandidates rooted (fun r _ separates => ?_)
      fun _ _ _ separates => exists_effect_of_separates separates
    rwa [withNormalMarking, separates_withInitial]

/-! ### A system that counts down -/

namespace Synthesis

def countdown : TransitionSystem :=
  let first : Arc := ⟨"s0", "a", "s1", none⟩
  let second : Arc := ⟨"s1", "a", "s2", none⟩
  { initial := some "s0"
    incidences := [⟨"s0", [first], []⟩, ⟨"s1", [second], [first]⟩, ⟨"s2", [], [second]⟩]
    arcs := [first, second]
    alphabet := ["a"] }

def countdownFrame : Frame := ⟨⟨countdown, some "s0", .forward, by decide, _, rfl⟩, rfl, _, rfl⟩

/-- Two tokens are needed to disable the label in the end, so that no plain and pure region with at
most one does. -/
theorem plain_exhaustive_countdown :
    (∃ r, countdownFrame.PlainPure (some 2) r ∧ countdownFrame.disables r "s2" "a" = true) ∧
      ¬ ∃ r, countdownFrame.PlainPure (some 1) r ∧
        countdownFrame.disables r "s2" "a" = true := by
  have wf : countdownFrame.graph.WellFormed := by constructor <;> decide
  have exhaustive (c : NetClass) := (Search.plain_exhaustive wf (s := "s2") (by decide)
    (fun _ => none) [] c [] {}).1 "a" (by decide)
  constructor
  · obtain ⟨answer, found, exact⟩ := exhaustive { plain := true, bound := some 2 }
    refine exact.1 ?_
    obtain rfl : some ⟨[⟨1, 0⟩], 2, rfl⟩ = answer := Except.ok.inj (.trans (by decide) found)
    rfl
  · obtain ⟨answer, found, exact⟩ := exhaustive { plain := true, bound := some 1 }
    obtain rfl : none = answer := Except.ok.inj (.trans (by decide) found)
    exact fun any => absurd (exact.2 any) (by simp)

end Synthesis

end NetSynthesis
