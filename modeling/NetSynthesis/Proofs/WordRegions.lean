import Mathlib.Data.Finset.Card
import NetSynthesis.Proofs.FreeCandidates
import NetSynthesis.Proofs.NetRegions
import NetSynthesis.Proofs.SearchCompleteness
import NetSynthesis.Proofs.WordFrames
import NetSynthesis.Proofs.WordPlaces

/-! The regions of a word. On the frame of a word the regions that programs may answer with are the
places for the word, and where the class lets side conditions be, these can be added wherever slight
gains tell the states that enable a letter from those that do not. What is left of a search is which
letters can be prevented. -/
namespace NetSynthesis

open LabelledGraph SeparationProgram WordPlace

variable {f : Frame} {root s : State} {word v : List Event} {e : Event} {c : NetClass}
  {ls : Locations} {o : Options} {limit : Nat} {r q : Region f.size} {p : WordPlace}

/-! ### Slight effects -/

namespace Strategy

theorem usable_basicImpure_iff : basicImpure.refusal? f.size c ls o = none ↔
    c.AdmitsConditions ∧ ∀ l ∈ ls, l = none := by
  rw [refusal?, basicRefusal?_eq_none_iff, NetClass.AdmitsConditions]
  simp [and_assoc]

end Strategy

namespace Frame

theorem isPlain_of_slight (pure : r.isPure = true) (slight : IntVector.Slight r.effect) :
    r.isPlain = true := by
  apply Region.isPlain_iff.2
  intro i inside
  have small := slight.small i
  have one := Region.isPure_iff.1 pure i inside
  rw [r.getD_effect, Weight.effect] at small
  omega

/-- Searches can disable an event where programs can, or where side conditions are allowed and a
candidate has fewer tokens than in all states that enable the event. -/
theorem exists_obtainable_iff (rooted : f.Rooted root)
    (slight : ∀ q ∈ f.basicCandidates f.basis ++ [Region.trivial f.size], IntVector.Slight q.effect)
    (unlocated : ∀ l ∈ ls, l = none) (representable : c.Representable o.weightLimit)
    (known : e ∈ f.events) (found : f.isReachable s = true) :
    (∃ r, f.Obtainable c ls o r ∧ f.disables r s e = true) ↔
      (∃ r, f.Eligible c ls o.weightLimit r ∧ f.disables r s e = true) ∨
      (c.AdmitsConditions ∧ ∃ q ∈ f.basicCandidates f.basis ++ [Region.trivial f.size],
        ∀ t ∈ f.enabling e, f.tokens q s < f.tokens q t) := by
  obtain ⟨i, index, inside⟩ := rooted.eventIndex?_of_mem known
  have eligible {q : Region f.size} {strategy : Strategy}
      (usable : strategy.refusal? f.size c ls o = none) (yields : strategy.Yields f c ls o q)
      (member : q ∈ f.basicCandidates f.basis) : f.Eligible c ls o.weightLimit q :=
    eligible_of_isPlain (rooted.valid_basicCandidates member) (yields.inClass usable)
      (isPlain_of_slight (isPure_of_mem_basicCandidates member)
        (slight q (List.mem_append_left _ member))) o.weightLimit_pos
  constructor
  · rintro ⟨r, ⟨strategy, usable, yields⟩, disables⟩
    cases strategy with
    | basicPure => exact .inl ⟨r, eligible usable yields yields, disables⟩
    | plainPure =>
      exact .inl ⟨r, eligible_of_isPlain (rooted.valid_plainCandidates yields)
        (yields.inClass usable) (mem_plainCandidates yields).2.1 o.weightLimit_pos, disables⟩
    | inequality => exact .inl ⟨r, (admitted_iff representable).1 yields, disables⟩
    | basicImpure =>
      rcases yields with member | conditioned
      · exact .inl ⟨r, eligible usable (.inl member) member, disables⟩
      obtain ⟨q, member, same⟩ := conditioned.exists_effect rooted
      exact .inr ⟨(Strategy.usable_basicImpure_iff.1 usable).1, q, member,
        (conditioned.valid rooted).fewer_of_disables rooted.wellFormed same disables⟩
  · rintro (⟨r, eligible, disables⟩ | ⟨admits, q, member, fewer⟩)
    · exact ⟨r, eligible.obtainable representable, disables⟩
    obtain ⟨r, added⟩ := Option.ne_none_iff_exists'.1 (withSideCondition?_ne_none (i := i) fewer)
    refine ⟨r, ⟨.basicImpure, Strategy.usable_basicImpure_iff.2 ⟨admits, unlocated⟩,
      .inr ⟨q, member, s, e, i, found, index, added⟩⟩, ?_⟩
    exact (rooted.valid_withSideCondition (rooted.valid_conditioning member) found index inside
      added).2

/-! ### Regions and places -/

/-- A region and a place have the same tokens and, for all events, the same weights. -/
structure Agrees (f : Frame) (r : Region f.size) (p : WordPlace) : Prop where
  initial : r.initial = p.initial
  weights : ∀ e ∈ f.events, f.weightOf r e = p.weights e

theorem agrees_place (r : Region f.size) : f.Agrees r ⟨r.initial, f.weightOf r⟩ :=
  ⟨rfl, fun _ _ => rfl⟩

namespace Spells

variable (spells : f.Spells root word)

include spells

theorem exists_agrees (p : WordPlace) : ∃ r, f.Agrees r p := by
  refine ⟨⟨f.events.map p.weights, p.initial, by simp [events]⟩, rfl, fun e known => ?_⟩
  obtain ⟨i, index, _⟩ := spells.rooted.eventIndex?_of_mem known
  have at_i := spells.rooted.eventIndex?_eq_some.1 index
  simp [weightOf, index, Region.weightAt, at_i]

/-! Letters and the positions of events. -/

theorem exists_position (member : e ∈ word) : ∃ i < f.size, f.events[i]? = some e := by
  obtain ⟨i, at_i⟩ := List.mem_iff_getElem?.1 ((spells.mem_events e).2 member)
  exact ⟨i, (List.getElem?_eq_some_iff.1 at_i).1, at_i⟩

theorem exists_letter {i : Nat} (inside : i < f.size) : ∃ e ∈ word, f.events[i]? = some e := by
  obtain ⟨e, at_i⟩ := exists_event inside
  exact ⟨e, (spells.mem_events e).1 (List.mem_of_getElem? at_i), at_i⟩

theorem position_unique {i j : Nat} (at_i : f.events[i]? = some e) (at_j : f.events[j]? = some e) :
    i = j :=
  (List.getElem?_inj (List.getElem?_eq_some_iff.1 at_i).1
    spells.rooted.wellFormed.alphabet_nodup).1 (at_i.trans at_j.symm)

theorem weightAt_eq (agrees : f.Agrees r p) {i : Nat} (at_i : f.events[i]? = some e) :
    r.weightAt i = p.weights e := by
  rw [← weightOf_eq spells.rooted.wellFormed at_i]
  exact agrees.weights e (List.mem_of_getElem? at_i)

theorem forall_weightAt_iff (agrees : f.Agrees r p) (P : Weight → Prop) :
    (∀ i < f.size, P (r.weightAt i)) ↔ ∀ e ∈ word, P (p.weights e) := by
  constructor
  · intro all e member
    obtain ⟨i, inside, at_i⟩ := spells.exists_position member
    exact spells.weightAt_eq agrees at_i ▸ all i inside
  · intro all i inside
    obtain ⟨e, member, at_i⟩ := spells.exists_letter inside
    rw [spells.weightAt_eq agrees at_i]
    exact all e member

theorem length_filter_le_one_iff (agrees : f.Agrees r p) (P : Weight → Prop) [DecidablePred P] :
    ((List.range f.size).filter fun i => P (r.weightAt i)).length ≤ 1 ↔
      AtMostOne word fun e => P (p.weights e) := by
  have nodup := List.nodup_range (n := f.size).filter fun i => decide (P (r.weightAt i))
  rw [← List.toFinset_card_of_nodup nodup, Finset.card_le_one]
  simp only [List.mem_toFinset, List.mem_filter, List.mem_range, decide_eq_true_eq]
  constructor
  · intro one d hd e he first second
    obtain ⟨i, hi, at_i⟩ := spells.exists_position hd
    obtain ⟨j, hj, at_j⟩ := spells.exists_position he
    rw [← spells.weightAt_eq agrees at_i] at first
    rw [← spells.weightAt_eq agrees at_j] at second
    obtain rfl := one i ⟨hi, first⟩ j ⟨hj, second⟩
    exact Option.some.inj (at_i.symm.trans at_j)
  · rintro one i ⟨hi, first⟩ j ⟨hj, second⟩
    obtain ⟨d, hd, at_i⟩ := spells.exists_letter hi
    obtain ⟨e, he, at_j⟩ := spells.exists_letter hj
    rw [spells.weightAt_eq agrees at_i] at first
    rw [spells.weightAt_eq agrees at_j] at second
    obtain rfl := one d hd e he first second
    exact spells.position_unique at_i at_j

theorem entry_eq (agrees : f.Agrees r p) (member : e ∈ word) :
    f.entry r.effect e = p.effect e := by
  rw [entry_effect, WordPlace.effect, agrees.weights e ((spells.mem_events e).2 member)]

theorem tokens_eq_place (agrees : f.Agrees r p) (path : (f.graph.behaviour root).Path root v s) :
    f.tokens r s = p.tokens v := by
  have shorter : v <+: word := (spells.path_iff v).1 ⟨s, path⟩
  rw [spells.tokens_eq path, WordPlace.tokens, agrees.initial, gain]
  congr 2
  exact List.map_congr_left fun e member => spells.entry_eq agrees (shorter.subset member)

theorem valid_iff_carries (agrees : f.Agrees r p) : f.Valid r ↔ p.Carries word := by
  have weight {v : List Event} {e : Event} (longer : v ++ [e] <+: word) :
      f.weightOf r e = p.weights e :=
    agrees.weights e ((spells.mem_events e).2 (longer.subset (by simp)))
  constructor
  · intro valid
    refine ⟨fun v shorter => ?_, fun v e longer => ?_⟩
    · obtain ⟨s, path, found⟩ := spells.exists_state shorter
      exact spells.tokens_eq_place agrees path ▸ valid.nonneg s found
    · obtain ⟨s, path, found⟩ := spells.exists_state ((List.prefix_append v [e]).trans longer)
      obtain ⟨a, edge, rfl⟩ := (spells.enables_iff path).2 longer
      rw [← spells.tokens_eq_place agrees path, ← weight longer]
      exact valid.enough s found a edge
  · intro carries
    refine .of_consistent spells.rooted (spells.consistent _) (fun s found => ?_)
      fun s found a edge => ?_ <;> obtain ⟨v, path, shorter⟩ := spells.exists_prefix found
    · rw [spells.tokens_eq_place agrees path]
      exact carries.nonneg v shorter
    · have longer := (spells.enables_iff path).1 ⟨a, edge, rfl⟩
      rw [spells.tokens_eq_place agrees path, weight longer]
      exact carries.enough v _ longer

theorem bound_le_iff_place (agrees : f.Agrees r p) {k : Int} :
    f.bound r ≤ k ↔ ∀ v, v <+: word → p.tokens v ≤ k := by
  rw [bound_le_iff spells.rooted]
  constructor
  · intro all v shorter
    obtain ⟨s, path, found⟩ := spells.exists_state shorter
    exact spells.tokens_eq_place agrees path ▸ all s found
  · intro all s found
    obtain ⟨v, path, shorter⟩ := spells.exists_prefix found
    exact spells.tokens_eq_place agrees path ▸ all v shorter

theorem consumers_iff (agrees : f.Agrees r p) :
    r.consumers.length ≤ 1 ↔ AtMostOne word p.Takes :=
  spells.length_filter_le_one_iff agrees fun w => 0 < w.backward

theorem producers_iff (agrees : f.Agrees r p) :
    r.producers.length ≤ 1 ↔ AtMostOne word p.Puts :=
  spells.length_filter_le_one_iff agrees fun w => 0 < w.forward

theorem gives_back_iff (agrees : f.Agrees r p) :
    (∀ i ∈ r.consumers, i ∈ r.producers) ↔ ∀ e ∈ word, p.Takes e → p.Puts e := by
  refine Iff.trans ?_ (spells.forall_weightAt_iff agrees fun w => 0 < w.backward → 0 < w.forward)
  simp only [mem_consumers, mem_producers, and_imp]
  exact forall₂_congr fun i inside => by simp [inside]

/-- The regions that programs may answer with are the places for the word. -/
theorem eligible_iff_suits (agrees : f.Agrees r p) (unlocated : ∀ l ∈ ls, l = none) :
    f.Eligible c ls limit r ↔ p.Carries word ∧ p.Suits c limit word := by
  have light : Fits (weightBound c limit) none r ↔ ∀ e ∈ word,
      (p.weights e).backward ≤ weightBound c limit ∧
        (p.weights e).forward ≤ weightBound c limit := by
    rw [← spells.forall_weightAt_iff agrees fun w => w.backward ≤ weightBound c limit ∧
      w.forward ≤ weightBound c limit]
    exact ⟨Fits.within, fun all => ⟨fun i inside => (all i inside).1,
      fun i inside => (all i inside).2, by simp⟩⟩
  have pure : r.isPure = true ↔
      ∀ e ∈ word, (p.weights e).forward = 0 ∨ (p.weights e).backward = 0 :=
    Region.isPure_iff.trans
      (spells.forall_weightAt_iff agrees fun w => w.forward = 0 ∨ w.backward = 0)
  constructor
  · rintro ⟨valid, inClass, _, fits⟩
    obtain ⟨connected, _, bounded⟩ := inClass_iff.1 inClass
    refine ⟨(spells.valid_iff_carries agrees).1 valid, ?_⟩
    exact {
      pure := fun given => pure.1 (connected.pure given)
      light := light.1 fits
      bounded := fun k given => (spells.bound_le_iff_place agrees).1 (bounded k given)
      tNet := fun given => (connected.tNet given).imp (spells.consumers_iff agrees).1
        (spells.producers_iff agrees).1
      outputNonbranching := fun given =>
        (spells.consumers_iff agrees).1 (connected.outputNonbranching given)
      conflictFree := fun given => (connected.conflictFree given).imp
        (spells.consumers_iff agrees).1 (spells.gives_back_iff agrees).1 }
  · rintro ⟨carries, suits⟩
    have connected : Connected c r := {
      pure := fun given => pure.2 (suits.pure given)
      tNet := fun given => (suits.tNet given).imp (spells.consumers_iff agrees).2
        (spells.producers_iff agrees).2
      outputNonbranching := fun given =>
        (spells.consumers_iff agrees).2 (suits.outputNonbranching given)
      conflictFree := fun given => (suits.conflictFree given).imp
        (spells.consumers_iff agrees).2 (spells.gives_back_iff agrees).2 }
    have fits := light.2 suits.light
    exact ⟨(spells.valid_iff_carries agrees).2 carries, inClass_iff.2 ⟨connected,
      isPlain_of_fits fits, fun k given => (spells.bound_le_iff_place agrees).2
        (suits.bounded k given)⟩, isLocal_of_none unlocated, fits⟩

theorem disables_iff_place (agrees : f.Agrees r p) (member : e ∈ word)
    (path : (f.graph.behaviour root).Path root v s) :
    f.disables r s e = true ↔ p.tokens v < ((p.weights e).backward : Int) := by
  rw [disables_iff, agrees.weights e ((spells.mem_events e).2 member),
    spells.tokens_eq_place agrees path]
  exact and_iff_right (spells.rooted.isReachable_iff_reaches.2 ⟨v, path⟩)

/-! ### Gains -/

theorem forall_enabling_iff (path : (f.graph.behaviour root).Path root v s) :
    (∀ t ∈ f.enabling e, f.tokens q s < f.tokens q t) ↔
      ∀ u, u ++ [e] <+: word → f.gain q.effect v < f.gain q.effect u := by
  constructor
  · intro fewer u longer
    obtain ⟨t, path', _⟩ := spells.exists_state ((List.prefix_append u [e]).trans longer)
    have less := fewer t ((spells.mem_enabling_iff path').2 longer)
    rw [spells.tokens_eq path, spells.tokens_eq path'] at less
    exact Int.lt_of_add_lt_add_left less
  · intro fewer t enabled
    have found := ((mem_enabling spells.rooted.wellFormed).1 enabled).1
    obtain ⟨u, path', _⟩ := spells.exists_prefix found
    rw [spells.tokens_eq path, spells.tokens_eq path']
    exact Int.add_lt_add_left (fewer u ((spells.mem_enabling_iff path').1 enabled)) _

theorem slightGains_iff {w : IntVector} (length : w.length = f.size) :
    IntVector.Slight w ↔ SlightGains (f.entry w) word := by
  have at_index {i : Nat} {e : Event} (at_i : f.events[i]? = some e) :
      f.entry w e = w[i]?.getD 0 := by
    simp [entry, spells.rooted.eventIndex?_eq_some.2 at_i]
  have letter {i : Nat} (differs : w[i]?.getD 0 ≠ 0) :
      ∃ e ∈ word, f.events[i]? = some e ∧ f.entry w e ≠ 0 := by
    have inside : i < f.size := by
      by_contra beyond
      exact differs (by rw [List.getElem?_eq_none (by omega)]; rfl)
    obtain ⟨e, member, at_i⟩ := spells.exists_letter inside
    exact ⟨e, member, at_i, at_index at_i ▸ differs⟩
  constructor
  · rintro ⟨small, few⟩
    refine ⟨fun e member => ?_, fun e₁ h₁ e₂ h₂ e₃ h₃ d₁ d₂ d₃ => ?_⟩
    · obtain ⟨i, _, at_i⟩ := spells.exists_position member
      exact at_index at_i ▸ small i
    · obtain ⟨i, _, at_i⟩ := spells.exists_position h₁
      obtain ⟨j, _, at_j⟩ := spells.exists_position h₂
      obtain ⟨k, _, at_k⟩ := spells.exists_position h₃
      rw [at_index at_i] at d₁
      rw [at_index at_j] at d₂
      rw [at_index at_k] at d₃
      rcases few i j k d₁ d₂ d₃ with rfl | rfl | rfl
      · exact .inl (Option.some.inj (at_i.symm.trans at_j))
      · exact .inr (.inl (Option.some.inj (at_j.symm.trans at_k)))
      · exact .inr (.inr (Option.some.inj (at_i.symm.trans at_k)))
  · rintro ⟨small, few⟩
    refine ⟨fun k => ?_, fun i j k d₁ d₂ d₃ => ?_⟩
    · by_cases zero : w[k]?.getD 0 = 0
      · simp [zero]
      · obtain ⟨e, member, at_k, _⟩ := letter zero
        exact at_index at_k ▸ small e member
    · obtain ⟨e₁, h₁, at_i, d₁⟩ := letter d₁
      obtain ⟨e₂, h₂, at_j, d₂⟩ := letter d₂
      obtain ⟨e₃, h₃, at_k, d₃⟩ := letter d₃
      rcases few e₁ h₁ e₂ h₂ e₃ h₃ d₁ d₂ d₃ with rfl | rfl | rfl
      · exact .inl (spells.position_unique at_i at_j)
      · exact .inr (.inl (spells.position_unique at_j at_k))
      · exact .inr (.inr (spells.position_unique at_i at_k))

theorem exists_gains_iff {P : (Event → Int) → Prop}
    (local_P : ∀ g h, (∀ e ∈ word, g e = h e) → P g → P h) :
    (∃ q ∈ f.basicCandidates f.basis ++ [Region.trivial f.size], P (f.entry q.effect)) ↔
      ∃ gains, SlightGains gains word ∧ P gains := by
  constructor
  · rintro ⟨q, member, holds⟩
    have slight := slight_effect spells.consistent member
    exact ⟨_, (spells.slightGains_iff q.length_effect).1 slight, holds⟩
  · rintro ⟨gains, slight, holds⟩
    have size : (f.events.map gains).length = f.size := List.length_map ..
    have entry (e : Event) (member : e ∈ word) : f.entry (f.events.map gains) e = gains e := by
      obtain ⟨i, _, at_i⟩ := spells.exists_position member
      simp [Frame.entry, spells.rooted.eventIndex?_eq_some.2 at_i, at_i]
    have slight : SlightGains (f.entry (f.events.map gains)) word := by
      refine ⟨fun e member => ?_, fun e₁ h₁ e₂ h₂ e₃ h₃ => ?_⟩
      · rw [entry e member]
        exact slight.small e member
      · rw [entry e₁ h₁, entry e₂ h₂, entry e₃ h₃]
        exact slight.few e₁ h₁ e₂ h₂ e₃ h₃
    obtain ⟨q, member, effect⟩ :=
      exists_candidate spells.consistent size ((spells.slightGains_iff size).2 slight)
    refine ⟨q, member, local_P gains _ (fun e known => ?_) holds⟩
    rw [effect, entry e known]

/-! ### Steps -/

/-- A search can disable an event just if the letter can be prevented. -/
theorem prevents_iff (unlocated : ∀ l ∈ ls, l = none)
    (representable : c.Representable o.weightLimit) (member : e ∈ word)
    (path : (f.graph.behaviour root).Path root v s) :
    (∃ r, f.Obtainable c ls o r ∧ f.disables r s e = true) ↔
      Prevents c o.weightLimit word v e := by
  have shorter : v <+: word := (spells.path_iff v).1 ⟨s, path⟩
  have known : e ∈ f.events := (spells.mem_events e).2 member
  have found : f.isReachable s = true := spells.rooted.isReachable_iff_reaches.2 ⟨v, path⟩
  rw [exists_obtainable_iff spells.rooted (fun _ => slight_effect spells.consistent) unlocated
    representable known found, Prevents]
  refine or_congr ?_ (and_congr_right fun _ => ?_)
  · constructor
    · rintro ⟨r, eligible, disables⟩
      have agrees := agrees_place r
      obtain ⟨carries, suits⟩ := (spells.eligible_iff_suits agrees unlocated).1 eligible
      exact ⟨_, carries, suits, (spells.disables_iff_place agrees member path).1 disables⟩
    · rintro ⟨p, carries, suits, short⟩
      obtain ⟨r, agrees⟩ := spells.exists_agrees p
      exact ⟨r, (spells.eligible_iff_suits agrees unlocated).2 ⟨carries, suits⟩,
        (spells.disables_iff_place agrees member path).2 short⟩
  · simp only [spells.forall_enabling_iff path, gain]
    refine spells.exists_gains_iff (P := fun gains => ∀ u, u ++ [e] <+: word →
      (v.map gains).sum < (u.map gains).sum) fun g h same less u longer => ?_
    have equal {u : List Event} (shorter : u <+: word) : u.map g = u.map h :=
      List.map_congr_left fun e member => same e (shorter.subset member)
    rw [← equal shorter, ← equal ((List.prefix_append u [e]).trans longer)]
    exact less u longer

end Spells

end Frame

end NetSynthesis
