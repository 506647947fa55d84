import NetSynthesis.Proofs.ValidRegions
import NetSynthesis.Separation

/-! The regions that searches look among without solving programs are valid: basis regions, their
negations, sums and differences of two, plain and pure regions, and what side conditions make of
them. -/
namespace NetSynthesis.Frame

open IntVector

variable {f : Frame} {root : State}

theorem effect_pairCombinations {P : IntVector → Prop} (add : ∀ v w, P v → P w → P (v.add w))
    (scale : ∀ k v, P v → P (v.scale k)) {basis : List (Region f.size)}
    (base : ∀ r ∈ basis, P r.effect) : ∀ r ∈ f.pairCombinations basis, P r.effect := by
  induction basis with
  | nil => simp [pairCombinations]
  | cons r rest ih =>
    intro q member
    rw [pairCombinations] at member
    rcases List.mem_append.1 member with pair | later
    · obtain ⟨p, inside, member⟩ := List.mem_flatMap.1 pair
      obtain ⟨k, _, member⟩ := List.mem_flatMap.1 member
      have combined : P (r.addScaled p k).makePure.effect := by
        rw [Region.effect_makePure, Region.effect_addScaled]
        exact add _ _ (base r (by simp)) (scale _ _ (base p (by simp [inside])))
      simp only at member
      split at member
      · simp at member
      · rcases List.mem_cons.1 member with rfl | second
        · exact combined
        · rw [List.mem_singleton.1 second, Region.effect_negate]
          exact scale _ _ combined
    · exact ih (fun p inside => base p (by simp [inside])) q later

theorem effect_basicCandidates {P : IntVector → Prop} (add : ∀ v w, P v → P w → P (v.add w))
    (scale : ∀ k v, P v → P (v.scale k)) {basis : List (Region f.size)}
    (base : ∀ r ∈ basis, P r.effect) : ∀ r ∈ f.basicCandidates basis, P r.effect := by
  intro r member
  obtain ⟨q, inside, rfl⟩ := List.mem_map.1 member
  rw [withNormalMarking, Region.effect_withInitial]
  rw [List.mem_append, List.mem_append] at inside
  rcases inside with (single | negated) | pair
  · exact base q single
  · obtain ⟨p, single, rfl⟩ := List.mem_map.1 negated
    rw [Region.effect_negate]
    exact scale _ _ (base p single)
  · exact effect_pairCombinations add scale base q pair

theorem Rooted.valid_basicCandidates (rooted : f.Rooted root) {r : Region f.size}
    (member : r ∈ f.basicCandidates f.basis) : f.Valid r := by
  have consistent : f.Consistent r.effect := effect_basicCandidates
    (fun _ _ first second => first.add second) (fun k _ one => one.scale k)
    (fun _ basis => consistent_basis basis) r member
  obtain ⟨q, _, rfl⟩ := List.mem_map.1 member
  exact rooted.valid_withNormalMarking consistent

theorem length_signVectors {n : Nat} {v : IntVector} (member : v ∈ signVectors n) :
    v.length = n := by
  induction n generalizing v with
  | zero => simp_all [signVectors]
  | succ n ih =>
    obtain ⟨x, _, member⟩ := List.mem_flatMap.1 member
    obtain ⟨w, inside, rfl⟩ := List.mem_map.1 member
    simp [ih inside]

theorem Rooted.valid_plainCandidates (rooted : f.Rooted root) {bound : Option Nat}
    {r : Region f.size} (member : r ∈ f.plainCandidates bound) : f.Valid r := by
  obtain ⟨inside, _⟩ := List.mem_filter.1 member
  obtain ⟨v, sorted, rfl⟩ := List.mem_map.1 inside
  obtain ⟨k, _, counted⟩ := List.mem_flatMap.1 sorted
  obtain ⟨sign, cycles⟩ := List.mem_filter.1 (List.mem_filter.1 counted).1
  apply rooted.valid_withNormalMarking
  intro a chord
  rw [Region.effect_ofEffect (length_signVectors sign)]
  exact eq_of_beq (List.all_eq_true.1 cycles _ (List.mem_map_of_mem chord))

/-! ### Side conditions -/

theorem weightOf_setWeight (r : Region f.size) {e : Event} {i : Nat}
    (index : f.eventIndex? e = some i) (bound : i < f.size) (w : Weight) :
    f.weightOf (r.setWeight i w) e = w := by
  rw [weightOf, index]
  exact r.weightAt_setWeight bound w

theorem weightOf_setWeight_ne (r : Region f.size) {e : Event} {i : Nat}
    (index : f.eventIndex? e ≠ some i) (w : Weight) :
    f.weightOf (r.setWeight i w) e = f.weightOf r e := by
  simp only [weightOf]
  cases found : f.eventIndex? e with
  | none => rfl
  | some j =>
    have other : i ≠ j := fun same => index (by rw [found, same])
    exact r.weightAt_setWeight_ne other w

theorem mem_enabling (wf : f.graph.WellFormed) {s : State} {e : Event} :
    s ∈ f.enabling e ↔ f.isReachable s = true ∧ ∃ a ∈ f.graph.outgoing s, a.label = e := by
  simp only [enabling, List.mem_filter, List.mem_map, beq_iff_eq]
  constructor
  · rintro ⟨⟨a, ⟨arc, label⟩, source⟩, found⟩
    exact ⟨found, a, wf.mem_outgoing.2 ⟨arc, source⟩, label⟩
  · rintro ⟨found, a, edge, label⟩
    obtain ⟨arc, source⟩ := wf.mem_outgoing.1 edge
    exact ⟨⟨a, ⟨arc, label⟩, source⟩, found⟩

/-- The tokens that all states enabling an event have, or else one more than there are in a
state. -/
def available (f : Frame) (r : Region f.size) (s : State) (e : Event) : Int :=
  ((f.enabling e).map (f.tokens r)).min?.getD (f.tokens r s + 1)

theorem available_nonneg (rooted : f.Rooted root) {r : Region f.size} (valid : f.Valid r)
    {s : State} (found : f.isReachable s = true) (e : Event) : 0 ≤ f.available r s e := by
  rw [available]
  cases lowest : ((f.enabling e).map (f.tokens r)).min? with
  | none =>
    have := valid.nonneg s found
    rw [Option.getD_none]
    omega
  | some k =>
    obtain ⟨t, member, rfl⟩ := List.mem_map.1 (List.min?_mem lowest)
    exact valid.nonneg t ((mem_enabling rooted.wellFormed).1 member).1

theorem available_le (r : Region f.size) (s : State) {t : State} {e : Event}
    (member : t ∈ f.enabling e) : f.available r s e ≤ f.tokens r t := by
  have mapped := List.mem_map_of_mem (f := f.tokens r) member
  rw [available]
  cases lowest : ((f.enabling e).map (f.tokens r)).min? with
  | none => simp [List.min?_eq_none_iff.1 lowest] at mapped
  | some k => exact (List.min?_eq_some_iff.1 lowest).2 _ mapped

/-- A weight with the effect that there was leaves all tokens as they were. -/
theorem tokens_setWeight (r : Region f.size) (i : Nat) {w : Weight}
    (same : w.effect = (r.weightAt i).effect) (t : State) :
    f.tokens (r.setWeight i w) t = f.tokens r t := by
  rw [tokens, tokens, Region.tokensAfter, Region.tokensAfter, r.effect_setWeight i same]
  rfl

theorem Valid.setWeight (rooted : f.Rooted root) {r : Region f.size} (valid : f.Valid r) {e : Event}
    {i : Nat} (index : f.eventIndex? e = some i) (bound : i < f.size) {w : Weight}
    (same : w.effect = (r.weightAt i).effect)
    (enough : ∀ t ∈ f.enabling e, (w.backward : Int) ≤ f.tokens r t) :
    f.Valid (r.setWeight i w) := by
  refine .of_consistent rooted ?_ (fun t reached => ?_) fun t reached a edge => ?_
  · rw [r.effect_setWeight i same]
    exact valid.consistent rooted
  · rw [tokens_setWeight r i same]
    exact valid.nonneg t reached
  · rw [tokens_setWeight r i same]
    by_cases here : f.eventIndex? a.label = some i
    · have label : a.label = e := by
        have first := rooted.eventIndex?_eq_some.1 here
        exact Option.some.inj (first.symm.trans (rooted.eventIndex?_eq_some.1 index))
      rw [weightOf_setWeight r here bound]
      exact enough t ((mem_enabling rooted.wellFormed).2 ⟨reached, a, edge, label⟩)
    · rw [weightOf_setWeight_ne r here]
      exact valid.enough t reached a edge

theorem withSideCondition?_eq_some {r q : Region f.size} {s : State} {e : Event} {i : Nat}
    (added : f.withSideCondition? r s e i = some q) :
    ∃ most, most = max (f.available r s e) (-(r.weightAt i).effect) ∧ f.tokens r s < most ∧
      q = r.setWeight i ⟨most.toNat, (most + (r.weightAt i).effect).toNat⟩ := by
  refine ⟨_, rfl, ?_⟩
  unfold withSideCondition? at added
  simp only at added
  split at added
  · simp at added
  · rename_i few
    exact ⟨Int.not_le.1 few, (Option.some.inj added).symm⟩

/-- A side condition leaves all effects as they are. It takes as many tokens as all states enabling
the event have, or as the effect needs, and that is more than there are. -/
theorem Rooted.exists_weight (rooted : f.Rooted root) {r q : Region f.size} (valid : f.Valid r)
    {s : State} (found : f.isReachable s = true) {e : Event} {i : Nat}
    (added : f.withSideCondition? r s e i = some q) :
    ∃ w : Weight, q = r.setWeight i w ∧ w.effect = (r.weightAt i).effect ∧
      (w.backward : Int) = max (f.available r s e) (-(r.weightAt i).effect) ∧
      f.tokens r s < w.backward := by
  obtain ⟨most, largest, few, rfl⟩ := withSideCondition?_eq_some added
  have nonneg := available_nonneg rooted valid found e
  refine ⟨_, rfl, ?_, ?_, ?_⟩ <;> simp only [Weight.effect] at largest ⊢ <;> omega

/-- A side condition keeps a region valid: it takes no more tokens than there are in any state that
enables the event, and it takes more than there are in the given state. -/
theorem Rooted.valid_withSideCondition (rooted : f.Rooted root) {r q : Region f.size}
    (valid : f.Valid r) {s : State} (found : f.isReachable s = true) {e : Event} {i : Nat}
    (index : f.eventIndex? e = some i) (bound : i < f.size)
    (added : f.withSideCondition? r s e i = some q) : f.Valid q ∧ f.disables q s e = true := by
  obtain ⟨w, rfl, same, largest, few⟩ := rooted.exists_weight valid found added
  have effect : (r.weightAt i).effect = (f.weightOf r e).effect := by simp [weightOf, index]
  constructor
  · apply valid.setWeight rooted index bound same
    intro t member
    obtain ⟨reached, a, edge, label⟩ := (mem_enabling rooted.wellFormed).1 member
    obtain ⟨arc, source⟩ := rooted.wellFormed.mem_outgoing.1 edge
    -- The target of the arc has tokens left, so that the effect alone takes no more than there is.
    have target := valid.nonneg _ (rooted.isReachable_target (source ▸ reached) arc)
    rw [valid.step t reached a edge, label, ← effect] at target
    have least := available_le r s member
    omega
  · rw [disables_iff, tokens_setWeight r i same, weightOf_setWeight r index bound]
    exact ⟨found, few⟩

theorem weightOf_trivial (e : Event) :
    (f.weightOf (Region.trivial f.size) e).backward = 0 := by
  rw [weightOf]
  cases f.eventIndex? e with
  | none => rfl
  | some i =>
    simp only [Region.weightAt, Region.trivial, List.getElem?_replicate, Option.map_some]
    split <;> rfl

theorem Rooted.valid_trivial (rooted : f.Rooted root) : f.Valid (Region.trivial f.size) := by
  have zeros := Region.effect_trivial (n := f.size)
  have none : ∀ s, f.tokens (Region.trivial f.size) s = 0 := by
    intro s
    rw [tokens, Region.tokensAfter, dot_comm, dot_of_zeros _ _ zeros]
    rfl
  refine .of_consistent rooted (.of_zeros zeros) (fun s _ => by simp [none]) fun s _ a _ => ?_
  simp [none, weightOf_trivial]

/-- What side conditions are added to is valid. -/
theorem Rooted.valid_conditioning (rooted : f.Rooted root) {q : Region f.size}
    (member : q ∈ f.basicCandidates f.basis ++ [Region.trivial f.size]) : f.Valid q := by
  rcases List.mem_append.1 member with listed | last
  · exact rooted.valid_basicCandidates listed
  · rw [List.mem_singleton.1 last]
    exact rooted.valid_trivial

end NetSynthesis.Frame
