import NetSynthesis.Proofs.SynthesizedNet

/-! Sums and multiples of regions. Tokens depend on the effect and the initial tokens alone and are
linear in both. What events take and put is linear in a region only for factors that are not
negative, and with these sums of valid regions are valid. -/
namespace NetSynthesis

open IntVector

namespace Region

variable {n : Nat}

/-- With a negative factor events take what they put before. -/
theorem backward_addScaled (r q : Region n) (k : Int) : (r.addScaled q k).backward =
    add r.backward (if 0 ≤ k then scale k q.backward else scale (-k) q.forward) := by
  refine eq_of_getD (by split <;> simp) fun i => ?_
  rw [getD_backward, weightAt_addScaled, getD_add, getD_backward, Weight.add, Int.natCast_add,
    Weight.backward_scale]
  split <;> rw [getD_scale]
  · rw [getD_backward]
  · rw [getD_forward]

theorem forward_addScaled (r q : Region n) (k : Int) : (r.addScaled q k).forward =
    add r.forward (if 0 ≤ k then scale k q.forward else scale (-k) q.backward) := by
  refine eq_of_getD (by split <;> simp) fun i => ?_
  rw [getD_forward, weightAt_addScaled, getD_add, getD_forward, Weight.add, Int.natCast_add,
    Weight.forward_scale]
  split <;> rw [getD_scale]
  · rw [getD_forward]
  · rw [getD_backward]

theorem tokensAfter_addScaled (r q : Region n) (k : Int) (v : IntVector) :
    (r.addScaled q k).tokensAfter v = r.tokensAfter v + k * q.tokensAfter v := by
  rw [tokensAfter, effect_addScaled, add_dot, scale_dot, tokensAfter, tokensAfter, addScaled]
  ring

theorem tokensAfter_makePure (r : Region n) (v : IntVector) :
    r.makePure.tokensAfter v = r.tokensAfter v := by
  rw [tokensAfter, effect_makePure]
  rfl

theorem tokensAfter_negate (r : Region n) (v : IntVector) :
    r.negate.tokensAfter v = r.initial - r.tokensAfter v := by
  rw [tokensAfter, effect_negate, scale_dot, tokensAfter]
  change 0 + -1 * r.effect.dot v = _
  omega

/-- Pure regions are made of their effects. -/
theorem makePure_eq (r : Region n) : r.makePure = ofEffect n r.effect r.initial := by
  rw [makePure, ofEffect, Region.mk.injEq, map_range_getD r.length_effect]
  exact ⟨rfl, rfl⟩

theorem negate_eq (r : Region n) : r.negate = ofEffect n (r.effect.scale (-1)) := by
  rw [negate, ofEffect, Region.mk.injEq, map_range_getD (by simp)]
  simp [scale, Function.comp_def]

end Region

namespace Frame

variable {f : Frame} {r q : Region f.size} {k : Int}

theorem marking_of_isReachable (r : Region f.size) {s : State} (found : f.isReachable s = true) :
    f.marking r s = .ok (f.tokens r s) := by
  obtain ⟨v, entry⟩ := Option.isSome_iff_exists.1 found
  rw [marking, parikh, tokens, vector, entry]
  rfl

theorem weightOf_addScaled (r q : Region f.size) (k : Int) (e : Event) :
    f.weightOf (r.addScaled q k) e = (f.weightOf r e).add ((f.weightOf q e).scale k) := by
  rw [weightOf, weightOf, weightOf]
  cases f.eventIndex? e with
  | none => simp [Weight.add, Weight.scale]
  | some i => exact r.weightAt_addScaled q k i

theorem weightOf_makePure (r : Region f.size) (e : Event) :
    f.weightOf r.makePure e = .ofEffect (f.weightOf r e).effect := by
  rw [weightOf, weightOf]
  cases f.eventIndex? e with
  | none => rfl
  | some i =>
    rw [Region.makePure_eq]
    exact (Region.weightAt_ofEffect r.length_effect _ i).trans (congrArg _ (r.getD_effect i))

/-- Valid regions have sums and multiples by factors that are not negative. -/
theorem Valid.addScaled (valid : f.Valid r) (other : f.Valid q) (nonneg : 0 ≤ k) :
    f.Valid (r.addScaled q k) := by
  have tokens (s : State) : f.tokens (r.addScaled q k) s = f.tokens r s + k * f.tokens q s :=
    r.tokensAfter_addScaled q k (f.vector s)
  refine ⟨?_, fun s found => ?_, fun s found a edge => ?_, fun s found a edge => ?_⟩
  · exact Int.add_nonneg valid.initial (Int.mul_nonneg nonneg other.initial)
  · rw [tokens]
    exact Int.add_nonneg (valid.nonneg s found) (Int.mul_nonneg nonneg (other.nonneg s found))
  · rw [tokens, weightOf_addScaled, Weight.add, Int.natCast_add, Weight.backward_scale,
      if_pos nonneg]
    exact Int.add_le_add (valid.enough s found a edge)
      (Int.mul_le_mul_of_nonneg_left (other.enough s found a edge) nonneg)
  · rw [tokens, tokens, weightOf_addScaled, Weight.effect_add, Weight.effect_scale,
      valid.step s found a edge, other.step s found a edge]
    ring

/-- Side conditions can be dropped: what an arc leaves is no less than zero, so that its event
takes no more than there is even if it puts nothing back. -/
theorem Valid.makePure (wf : f.graph.WellFormed) (valid : f.Valid r) : f.Valid r.makePure := by
  have tokens (s : State) : f.tokens r.makePure s = f.tokens r s :=
    r.tokensAfter_makePure (f.vector s)
  refine ⟨valid.initial, fun s found => ?_, fun s found a edge => ?_, fun s found a edge => ?_⟩
  · rw [tokens]
    exact valid.nonneg s found
  · obtain ⟨root, rooted⟩ := exists_rooted wf found
    obtain ⟨arc, rfl⟩ := wf.mem_outgoing.1 edge
    have source := valid.nonneg a.source found
    have target := valid.nonneg a.target (rooted.isReachable_target found arc)
    have step := valid.step a.source found a edge
    rw [tokens, weightOf_makePure]
    simp only [Weight.ofEffect]
    omega
  · rw [tokens, tokens, weightOf_makePure, Weight.effect_ofEffect]
    exact valid.step s found a edge

/-! ### The operations -/

/-- A region with the weights, tokens and effect of a region and a multiple of another. The weights
are none less than zero, so that there is such a region. -/
structure IsSum (f : Frame) (r q : Region f.size) (k : Int) (p : Region f.size) : Prop where
  made : Region.of f.events
    (add r.backward (if 0 ≤ k then scale k q.backward else scale (-k) q.forward))
    (add r.forward (if 0 ≤ k then scale k q.forward else scale (-k) q.backward))
    (r.initial + k * q.initial) = .ok p
  effect : p.effect = r.effect.add (q.effect.scale k)
  marking : ∀ s, f.isReachable s = true →
    f.marking p s = .ok (f.tokens r s + k * f.tokens q s)
  valid : 0 ≤ k → f.isValid r = true → f.isValid q = true → f.isValid p = true

/-- A pure region that is made of the effect of a region and does the same. -/
structure IsPurified (f : Frame) (r p : Region f.size) : Prop where
  made : Region.ofVector f.events r.effect r.initial = .ok p
  pure : p.isPure = true
  marking : ∀ s, f.marking p s = f.marking r s
  valid : f.isValid r = true → f.isValid p = true

/-- A pure region that is made of the opposite effect and has the opposite differences of tokens. -/
structure IsOpposite (f : Frame) (r p : Region f.size) : Prop where
  made : Region.ofVector f.events (r.effect.scale (-1)) = .ok p
  pure : p.isPure = true
  difference : ∀ s t, f.tokens p s - f.tokens p t = -(f.tokens r s - f.tokens r t)

/-- Regions of one frame can be added without a failure, and sums and multiples, pure regions and
opposite ones have the tokens that they should have. -/
theorem regions_linear (wf : f.graph.WellFormed) :
    (∀ (r : Region f.size) s, f.isReachable s = true → f.marking r s = .ok (f.tokens r s)) ∧
    (∀ (r q : FramedRegion f.size) (k : Int), r.frame = q.frame → ∃ p,
      r.addScaled q k = .ok ⟨r.frame, p⟩ ∧ f.IsSum r.region q.region k p) ∧
    ∀ r : Region f.size, f.IsPurified r r.makePure ∧ f.IsOpposite r r.negate := by
  refine ⟨fun r s found => marking_of_isReachable r found, fun r q k same => ?_, fun r => ⟨?_, ?_⟩⟩
  · refine ⟨r.region.addScaled q.region k, if_pos same, ?_, Region.effect_addScaled .., ?_, ?_⟩
    · exact Region.of_eq_ok_iff.2
        ⟨rfl, Region.backward_addScaled .., Region.forward_addScaled ..⟩
    · intro s found
      rw [marking_of_isReachable _ found]
      exact congrArg _ (Region.tokensAfter_addScaled ..)
    · intro nonneg valid other
      exact isValid_iff.2 ((isValid_iff.1 valid).addScaled (isValid_iff.1 other) nonneg)
  · refine ⟨?_, r.isPure_makePure, fun s => ?_, fun valid => ?_⟩
    · rw [Region.makePure_eq]
      exact Region.ofVector_eq r.length_effect r.initial
    · rw [marking, marking, funext r.tokensAfter_makePure]
    · exact isValid_iff.2 ((isValid_iff.1 valid).makePure wf)
  · refine ⟨?_, r.isPure_negate, fun s t => ?_⟩
    · rw [Region.negate_eq]
      exact Region.ofVector_eq ((length_scale _ _).trans r.length_effect) 0
    · rw [tokens, tokens, r.tokensAfter_negate, r.tokensAfter_negate, tokens, tokens]
      omega

end Frame

namespace Synthesis

def lit : Region toggleFrame.size := ⟨[⟨1, 0⟩, ⟨0, 1⟩], 0, by decide⟩

def dark : Region toggleFrame.size := ⟨[⟨0, 1⟩, ⟨1, 0⟩], 1, by decide⟩

theorem regions_linear_toggle : ∃ p, FramedRegion.addScaled ⟨0, lit⟩ ⟨0, dark⟩ 2 = .ok ⟨0, p⟩ ∧
    toggleFrame.IsSum lit dark 2 p ∧ toggleFrame.isValid p = true ∧
    toggleFrame.isValid p.makePure = true := by
  have wf : toggleFrame.graph.WellFormed := toggle_wellFormed
  obtain ⟨_, sums, others⟩ := Frame.regions_linear wf
  obtain ⟨p, added, sum⟩ := sums ⟨0, lit⟩ ⟨0, dark⟩ 2 rfl
  have valid := sum.valid (by decide) (by decide) (by decide)
  exact ⟨p, added, sum, valid, (others p).1.valid valid⟩

example : lit.addScaled ⟨[⟨1, 2⟩, ⟨2, 1⟩], 2, rfl⟩ (-1) = ⟨[⟨3, 1⟩, ⟨1, 3⟩], -2, rfl⟩ := by
  decide

end Synthesis

end NetSynthesis
