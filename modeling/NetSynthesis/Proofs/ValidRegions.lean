import NetSynthesis.Proofs.KernelSolutions
import NetSynthesis.Proofs.RegionWeights

/-! Regions that can be places. `Frame.Valid` says what the check of a region decides: all reachable
states have tokens enough, and arcs change the tokens by the effects of their events. A consistent
effect with its normal marking is valid, whatever the weights that make up the effect. -/
namespace NetSynthesis

open IntVector

namespace Frame

variable {f : Frame} {root : State}

/-! ### Consistent effects -/

theorem Consistent.add {v w : IntVector} (first : f.Consistent v) (second : f.Consistent w) :
    f.Consistent (v.add w) := fun a chord => by
  rw [add_dot, first a chord, second a chord, Int.add_zero]

theorem Consistent.scale {v : IntVector} (k : Int) (consistent : f.Consistent v) :
    f.Consistent (v.scale k) := fun a chord => by
  rw [scale_dot, consistent a chord, Int.mul_zero]

theorem Consistent.of_zeros {v : IntVector} (zeros : ∀ x ∈ v, x = 0) : f.Consistent v :=
  fun a _ => by rw [dot_comm]; exact dot_of_zeros _ _ zeros

theorem consistent_basis {r : Region f.size} (member : r ∈ f.basis) : f.Consistent r.effect := by
  obtain ⟨v, inside, rfl⟩ := List.mem_map.1 member
  obtain ⟨length, solves⟩ := KernelBasis.of_solves inside
  intro a chord
  rw [Region.effect_ofEffect length, dot_comm]
  exact solves _ (List.mem_map_of_mem chord)

/-! ### Validity -/

/-- What makes a region fit to be a place. -/
structure Valid (f : Frame) (r : Region f.size) : Prop where
  initial : 0 ≤ r.initial
  nonneg : ∀ s, f.isReachable s = true → 0 ≤ f.tokens r s
  enough : ∀ s, f.isReachable s = true → ∀ a ∈ f.graph.outgoing s,
    ((f.weightOf r a.label).backward : Int) ≤ f.tokens r s
  step : ∀ s, f.isReachable s = true → ∀ a ∈ f.graph.outgoing s,
    f.tokens r a.target = f.tokens r s + (f.weightOf r a.label).effect

theorem isValid_iff {r : Region f.size} : f.isValid r = true ↔ f.Valid r := by
  simp only [isValid, Bool.and_eq_true, decide_eq_true_eq, List.all_eq_true, beq_iff_eq]
  constructor
  · rintro ⟨initial, all⟩
    exact ⟨initial, fun s found => (all s (mem_reachable.2 found)).1,
      fun s found a edge => ((all s (mem_reachable.2 found)).2 a edge).1,
      fun s found a edge => ((all s (mem_reachable.2 found)).2 a edge).2⟩
  · intro valid
    refine ⟨valid.initial, fun s member => ?_⟩
    have found := mem_reachable.1 member
    exact ⟨valid.nonneg s found, fun a edge => ⟨valid.enough s found a edge,
      valid.step s found a edge⟩⟩

theorem Valid.consistent {r : Region f.size} (valid : f.Valid r) (rooted : f.Rooted root) :
    f.Consistent r.effect :=
  rooted.consistent_of_step fun a arc source =>
    valid.step a.source source a (rooted.wellFormed.mem_outgoing.2 ⟨arc, rfl⟩)

theorem Valid.of_consistent {r : Region f.size} (rooted : f.Rooted root)
    (consistent : f.Consistent r.effect) (nonneg : ∀ s, f.isReachable s = true → 0 ≤ f.tokens r s)
    (enough : ∀ s, f.isReachable s = true → ∀ a ∈ f.graph.outgoing s,
      ((f.weightOf r a.label).backward : Int) ≤ f.tokens r s) : f.Valid r := by
  refine ⟨?_, nonneg, enough, fun s found a edge => ?_⟩
  · rw [← rooted.tokens_root r]
    exact nonneg root rooted.isReachable_root
  · obtain ⟨arc, rfl⟩ := rooted.wellFormed.mem_outgoing.1 edge
    exact rooted.tokens_step consistent found arc

theorem separates_iff {r : Region f.size} {s t : State} : f.separates r s t = true ↔
    f.isReachable s = true ∧ f.isReachable t = true ∧ f.tokens r s ≠ f.tokens r t := by
  simp [separates, and_assoc]

theorem disables_iff {r : Region f.size} {s : State} {e : Event} : f.disables r s e = true ↔
    f.isReachable s = true ∧ f.tokens r s < ((f.weightOf r e).backward : Int) := by
  simp [disables]

theorem tokens_withInitial (r : Region f.size) (k : Int) (s : State) :
    f.tokens (r.withInitial k) s = k + r.effect.dot (f.vector s) := rfl

theorem separates_withInitial (r : Region f.size) (k : Int) (s t : State) :
    f.separates (r.withInitial k) s t = f.separates r s t := by
  have same : f.tokens (r.withInitial k) s = f.tokens (r.withInitial k) t ↔
      f.tokens r s = f.tokens r t := by
    rw [tokens_withInitial, tokens_withInitial, tokens, tokens, Region.tokensAfter,
      Region.tokensAfter]
    omega
  simp only [separates, bne, beq_eq_decide, same]

/-! ### Normal markings -/

def raiseFor (f : Frame) (r : Region f.size) (least : Int) (p : State × IntVector) : Int :=
  (f.graph.outgoing p.1).foldl
    (fun m a => max m ((f.weightOf r a.label).backward - r.effect.dot p.2))
    (max least (-r.effect.dot p.2))

/-- What a state of the table needs of `k` initial tokens: some to have none less than zero, and
some for each event that it enables. -/
def Suffices (f : Frame) (r : Region f.size) (k : Int) (p : State × IntVector) : Prop :=
  0 ≤ k + r.effect.dot p.2 ∧ ∀ a ∈ f.graph.outgoing p.1,
    ((f.weightOf r a.label).backward : Int) ≤ k + r.effect.dot p.2

theorem raiseFor_le_iff {r : Region f.size} {least k : Int} {p : State × IntVector} :
    f.raiseFor r least p ≤ k ↔ least ≤ k ∧ f.Suffices r k p := by
  have largest : f.raiseFor r least p = ((f.graph.outgoing p.1).map fun a =>
      ((f.weightOf r a.label).backward : Int) - r.effect.dot p.2).foldl max
        (max least (-r.effect.dot p.2)) := by
    rw [List.foldl_map]
    rfl
  rw [largest, foldl_max_le_iff, max_le_iff, and_assoc, List.forall_mem_map, Suffices]
  simp only [sub_le_iff_le_add, neg_le_iff_add_nonneg]

/-- Initial tokens reach the normal marking just if they suffice for every reachable state. -/
theorem normalMarking_le_iff {r : Region f.size} {k : Int} :
    f.normalMarking r ≤ k ↔ 0 ≤ k ∧ ∀ p ∈ f.table, f.Suffices r k p := by
  have general (table : List (State × IntVector)) (least : Int) :
      table.foldl (f.raiseFor r) least ≤ k ↔ least ≤ k ∧ ∀ p ∈ table, f.Suffices r k p := by
    induction table generalizing least with
    | nil => simp
    | cons p table ih =>
      rw [List.foldl_cons, ih, raiseFor_le_iff, List.forall_mem_cons, and_assoc]
  exact general f.table 0

/-- The normal marking says which numbers of initial tokens are enough, and it has no part in
whether arcs change the tokens as they should. -/
theorem valid_withInitial_iff {r : Region f.size} {k : Int} : f.Valid (r.withInitial k) ↔
    f.normalMarking r ≤ k ∧ ∀ s, f.isReachable s = true → ∀ a ∈ f.graph.outgoing s,
      r.effect.dot (f.vector a.target) =
        r.effect.dot (f.vector s) + (f.weightOf r a.label).effect := by
  rw [normalMarking_le_iff]
  constructor
  · intro valid
    refine ⟨⟨valid.initial, fun p member => ?_⟩, fun s found a edge => ?_⟩
    · obtain ⟨found, vector⟩ := mem_table.1 member
      rw [Suffices, vector]
      exact ⟨valid.nonneg p.1 found, valid.enough p.1 found⟩
    · have step := valid.step s found a edge
      rw [tokens_withInitial, tokens_withInitial, Int.add_assoc] at step
      exact Int.add_left_cancel step
  · rintro ⟨⟨initial, enough⟩, steps⟩
    have entry (s : State) (found : f.isReachable s = true) : f.Suffices r k (s, f.vector s) :=
      enough _ (mem_table.2 ⟨found, rfl⟩)
    refine ⟨initial, fun s found => (entry s found).1, fun s found => (entry s found).2,
      fun s found a edge => ?_⟩
    rw [tokens_withInitial, tokens_withInitial, steps s found a edge, Int.add_assoc]
    rfl

/-- A valid region has as many initial tokens as the normal marking at least. -/
theorem Valid.normalMarking_le {r : Region f.size} (valid : f.Valid r) :
    f.normalMarking r ≤ r.initial :=
  (valid_withInitial_iff (k := r.initial).1 valid).1

theorem Rooted.valid_withNormalMarking (rooted : f.Rooted root) {r : Region f.size}
    (consistent : f.Consistent r.effect) : f.Valid (f.withNormalMarking r) := by
  refine valid_withInitial_iff.2 ⟨Int.le_refl _, fun s found a edge => ?_⟩
  obtain ⟨arc, rfl⟩ := rooted.wellFormed.mem_outgoing.1 edge
  have step := rooted.tokens_step consistent found arc
  rw [tokens, tokens, Region.tokensAfter, Region.tokensAfter, Int.add_assoc] at step
  exact Int.add_left_cancel step

end Frame

end NetSynthesis
