import NetSynthesis.Proofs.ProgramMeaning
import NetSynthesis.Proofs.SynthesizedNet

/-! Properties of a net, told by its regions. The outputs and inputs of a place are the consumers
and producers of its region, so that the arcs of the net have a property just if every region has
it, and the net is distributed just if every region takes tokens at one location. -/
namespace NetSynthesis

open SeparationProgram

variable {f : Frame} {e : Event}

theorem length_le_of_keys {α β : Type} {xs : List α} {keys : List β} {g : β → Option α}
    (nodup : xs.Nodup) (found : ∀ x ∈ xs, ∃ k ∈ keys, g k = some x) :
    xs.length ≤ keys.length := by
  have inside : xs ⊆ keys.filterMap g := fun x member =>
    List.mem_filterMap.2 (found x member)
  exact (nodup.subperm inside).length_le.trans (List.length_filterMap_le _ _)

theorem Frame.length_eq_of_positions (wf : f.graph.WellFormed) {xs : List Event}
    {positions : List Nat} (xs_nodup : xs.Nodup) (nodup : positions.Nodup)
    (inside : ∀ i ∈ positions, i < f.size)
    (same : ∀ x, x ∈ xs ↔ ∃ i ∈ positions, f.events[i]? = some x) :
    xs.length = positions.length := by
  refine Nat.le_antisymm (length_le_of_keys xs_nodup fun x member => (same x).1 member) ?_
  refine length_le_of_keys (g := f.eventIndex?) nodup fun i member => ?_
  obtain ⟨e, at_i⟩ := exists_event (inside i member)
  exact ⟨e, (same e).2 ⟨i, member, at_i⟩, (eventIndex?_eq_some wf).2 at_i⟩

namespace Assembly.MadeOf

variable {a : Assembly f.size} {regions : List (Region f.size)} {id x : String}
  {r : Region f.size} (made : a.MadeOf regions)

include made

theorem exists_id (member : r ∈ regions) : ∃ id, (id, r) ∈ a.places := by
  rw [← made.places] at member
  obtain ⟨⟨id, _⟩, place, rfl⟩ := List.mem_map.1 member
  exact ⟨id, place⟩

theorem forall_places_iff {P : String → Prop} {Q : Region f.size → Prop}
    (each : ∀ id r, (id, r) ∈ a.places → (P id ↔ Q r)) :
    (∀ p ∈ a.net.places, P p.id) ↔ ∀ r ∈ regions, Q r := by
  rw [made.places_eq, List.forall_mem_map, ← made.places, List.forall_mem_map]
  exact forall₂_congr fun p place => each p.1 p.2 place

/-! ### Arcs of a place -/

section Place

variable (place : (id, r) ∈ a.places)

include place

theorem mem_events_of_postset (output : x ∈ a.net.postset id) : x ∈ f.events := by
  rw [made.wellFormed.mem_postset, made.wellFormed.weight_pos_iff] at output
  obtain ⟨flow, member, source, target⟩ := output
  obtain ⟨id', q, other, e, w, entry, ⟨_, rfl⟩ | ⟨_, rfl⟩⟩ := made.mem_flows.1 member
  · exact target ▸ (List.of_mem_zip entry).1
  · exact absurd source.symm (made.id_ne place (List.of_mem_zip entry).1)

theorem mem_events_of_preset (input : x ∈ a.net.preset id) : x ∈ f.events := by
  rw [made.wellFormed.mem_preset, made.wellFormed.weight_pos_iff] at input
  obtain ⟨flow, member, source, target⟩ := input
  obtain ⟨id', q, other, e, w, entry, ⟨_, rfl⟩ | ⟨_, rfl⟩⟩ := made.mem_flows.1 member
  · exact absurd target.symm (made.id_ne place (List.of_mem_zip entry).1)
  · exact source ▸ (List.of_mem_zip entry).1

variable (wf : f.graph.WellFormed)

include wf

/-- The outputs of a place are the consumers of its region. -/
theorem mem_postset_iff :
    x ∈ a.net.postset id ↔ ∃ i ∈ r.consumers, f.events[i]? = some x := by
  constructor
  · intro output
    have known := made.mem_events_of_postset place output
    obtain ⟨i, index, inside⟩ := Frame.eventIndex?_of_mem wf known
    rw [made.wellFormed.mem_postset, made.weight_backward wf known place, Frame.weightOf,
      index] at output
    exact ⟨i, mem_consumers.2 ⟨inside, output⟩, (Frame.eventIndex?_eq_some wf).1 index⟩
  · rintro ⟨i, consumes, at_i⟩
    rw [made.wellFormed.mem_postset,
      made.weight_backward wf (List.mem_of_getElem? at_i) place, Frame.weightOf_eq wf at_i]
    exact (mem_consumers.1 consumes).2

theorem mem_preset_iff :
    x ∈ a.net.preset id ↔ ∃ i ∈ r.producers, f.events[i]? = some x := by
  constructor
  · intro input
    have known := made.mem_events_of_preset place input
    obtain ⟨i, index, inside⟩ := Frame.eventIndex?_of_mem wf known
    rw [made.wellFormed.mem_preset, made.weight_forward wf known place, Frame.weightOf,
      index] at input
    exact ⟨i, mem_producers.2 ⟨inside, input⟩, (Frame.eventIndex?_eq_some wf).1 index⟩
  · rintro ⟨i, produces, at_i⟩
    rw [made.wellFormed.mem_preset,
      made.weight_forward wf (List.mem_of_getElem? at_i) place, Frame.weightOf_eq wf at_i]
    exact (mem_producers.1 produces).2

theorem length_postset : (a.net.postset id).length = r.consumers.length :=
  Frame.length_eq_of_positions wf (made.wellFormed.postset_nodup id) (List.nodup_range.filter _)
    (fun _ consumes => (mem_consumers.1 consumes).1) fun _ => made.mem_postset_iff place wf

theorem length_preset : (a.net.preset id).length = r.producers.length :=
  Frame.length_eq_of_positions wf (made.wellFormed.preset_nodup id) (List.nodup_range.filter _)
    (fun _ produces => (mem_producers.1 produces).1) fun _ => made.mem_preset_iff place wf

theorem postset_subset_iff : (∀ x ∈ a.net.postset id, x ∈ a.net.preset id) ↔
    ∀ i ∈ r.consumers, i ∈ r.producers := by
  constructor
  · intro back i consumes
    obtain ⟨e, at_i⟩ := Frame.exists_event (mem_consumers.1 consumes).1
    have input := back e ((made.mem_postset_iff place wf).2 ⟨i, consumes, at_i⟩)
    obtain ⟨j, produces, at_j⟩ := (made.mem_preset_iff place wf).1 input
    rw [← Frame.eventIndex?_eq_some wf] at at_i at_j
    rwa [Option.some.inj (at_i.symm.trans at_j)]
  · intro back x output
    obtain ⟨i, consumes, at_i⟩ := (made.mem_postset_iff place wf).1 output
    exact (made.mem_preset_iff place wf).2 ⟨i, back i consumes, at_i⟩

end Place

section Event

variable (wf : f.graph.WellFormed) (known : e ∈ f.events)

include wf known

theorem mem_preset_event : x ∈ a.net.preset e ↔
    ∃ r, (x, r) ∈ a.places ∧ 0 < (f.weightOf r e).backward := by
  rw [made.wellFormed.mem_preset]
  constructor
  · intro positive
    obtain ⟨flow, member, source, target⟩ := made.wellFormed.weight_pos_iff.1 positive
    obtain ⟨id, q, place, e', w, entry, ⟨_, rfl⟩ | ⟨_, rfl⟩⟩ := made.mem_flows.1 member
    · obtain rfl : id = x := source
      exact ⟨q, place, made.weight_backward wf known place ▸ positive⟩
    · exact absurd target (made.id_ne place known)
  · rintro ⟨r, place, positive⟩
    rwa [made.weight_backward wf known place]

theorem mem_postset_event : x ∈ a.net.postset e ↔
    ∃ r, (x, r) ∈ a.places ∧ 0 < (f.weightOf r e).forward := by
  rw [made.wellFormed.mem_postset]
  constructor
  · intro positive
    obtain ⟨flow, member, source, target⟩ := made.wellFormed.weight_pos_iff.1 positive
    obtain ⟨id, q, place, e', w, entry, ⟨_, rfl⟩ | ⟨_, rfl⟩⟩ := made.mem_flows.1 member
    · exact absurd source (made.id_ne place known)
    · obtain rfl : id = x := target
      exact ⟨q, place, made.weight_forward wf known place ▸ positive⟩
  · rintro ⟨r, place, positive⟩
    rwa [made.weight_forward wf known place]

end Event

/-! ### Properties -/

theorem isPlain_iff : a.net.isPlain = true ↔ ∀ r ∈ regions, r.isPlain = true := by
  simp only [Net.isPlain, Region.isPlain, List.all_eq_true, beq_iff_eq, Bool.and_eq_true,
    decide_eq_true_eq]
  constructor
  · intro plain r member w listed
    obtain ⟨id, place⟩ := made.exists_id member
    obtain ⟨i, at_i⟩ := List.mem_iff_getElem?.1 listed
    have inside : i < f.size := r.length_eq ▸ (List.getElem?_eq_some_iff.1 at_i).1
    obtain ⟨e, event⟩ := Frame.exists_event inside
    have entry : (e, w) ∈ f.events.zip r.weights :=
      List.mem_iff_getElem?.2 ⟨i, List.getElem?_zip_eq_some.2 ⟨event, at_i⟩⟩
    constructor
    · by_cases none : w.forward = 0
      · omega
      · exact (plain _ (made.mem_flows.2 ⟨id, r, place, e, w, entry, .inr ⟨none, rfl⟩⟩)).le
    · by_cases none : w.backward = 0
      · omega
      · exact (plain _ (made.mem_flows.2 ⟨id, r, place, e, w, entry, .inl ⟨none, rfl⟩⟩)).le
  · intro plain flow member
    obtain ⟨id, r, place, e, w, entry, connected⟩ := made.mem_flows.1 member
    have light := plain r (made.mem_regions place) w (List.of_mem_zip entry).2
    rcases connected with ⟨positive, rfl⟩ | ⟨positive, rfl⟩ <;> simp only <;> omega

section Properties

variable (wf : f.graph.WellFormed)

include wf

theorem isPure_iff : a.net.isPure = true ↔ ∀ r ∈ regions, r.isPure = true := by
  have apart : a.net.isPure = true ↔
      ∀ e ∈ f.events, ∀ x ∈ a.net.preset e, x ∉ a.net.postset e := by
    simp only [Net.isPure, made.transitions_eq, List.all_eq_true, List.forall_mem_map,
      Bool.not_eq_true', ← Bool.not_eq_true, List.contains_iff_mem]
  rw [apart]
  constructor
  · intro apart r member
    obtain ⟨id, place⟩ := made.exists_id member
    refine Region.isPure_iff.2 fun i inside => ?_
    obtain ⟨e, at_i⟩ := Frame.exists_event inside
    have known := List.mem_of_getElem? at_i
    rw [← Frame.weightOf_eq wf at_i, ← Nat.le_zero, ← Nat.le_zero, ← Nat.not_lt, ← Nat.not_lt,
      ← not_and_or]
    rintro ⟨puts, takes⟩
    exact apart e known id ((made.mem_preset_event wf known).2 ⟨r, place, takes⟩)
      ((made.mem_postset_event wf known).2 ⟨r, place, puts⟩)
  · intro pure e known x input output
    obtain ⟨r, place, takes⟩ := (made.mem_preset_event wf known).1 input
    obtain ⟨q, other, puts⟩ := (made.mem_postset_event wf known).1 output
    obtain rfl := made.place_unique place other
    obtain ⟨i, index, inside⟩ := Frame.eventIndex?_of_mem wf known
    rw [Frame.weightOf_eq wf ((Frame.eventIndex?_eq_some wf).1 index)] at takes puts
    have one := Region.isPure_iff.1 (pure r (made.mem_regions place)) i inside
    omega

theorem isPlainTNet_iff : a.net.isPlainTNet = true ↔
    ∀ r ∈ regions, r.isPlain = true ∧ r.consumers.length ≤ 1 ∧ r.producers.length ≤ 1 := by
  simp only [Net.isPlainTNet, Bool.and_eq_true, List.all_eq_true, decide_eq_true_eq, forall₂_and,
    made.isPlain_iff]
  refine and_congr_right fun _ => and_comm.trans (and_congr ?_ ?_)
  · exact made.forall_places_iff (P := fun id => (a.net.postset id).length ≤ 1) fun id r place => by
      rw [made.length_postset place wf]
  · exact made.forall_places_iff (P := fun id => (a.net.preset id).length ≤ 1) fun id r place => by
      rw [made.length_preset place wf]

theorem isOutputNonbranching_iff : a.net.isOutputNonbranching = true ↔
    ∀ r ∈ regions, r.consumers.length ≤ 1 := by
  simp only [Net.isOutputNonbranching, List.all_eq_true, decide_eq_true_eq]
  exact made.forall_places_iff (P := fun id => (a.net.postset id).length ≤ 1) fun id r place => by
    rw [made.length_postset place wf]

theorem isConflictFree_iff : a.net.isConflictFree = true ↔
    ∀ r ∈ regions, r.consumers.length ≤ 1 ∨ ∀ i ∈ r.consumers, i ∈ r.producers := by
  simp only [Net.isConflictFree, List.all_eq_true, Bool.or_eq_true, decide_eq_true_eq,
    List.contains_iff_mem]
  refine made.forall_places_iff (P := fun id => (a.net.postset id).length ≤ 1 ∨
    ∀ x ∈ a.net.postset id, x ∈ a.net.preset id) fun id r place => ?_
  rw [made.length_postset place wf, made.postset_subset_iff place wf]

/-- A net is distributed just if the consumers of a region that have locations have the same. -/
theorem isDistributed_iff {location? : Event → Option Location} :
    a.net.isDistributed location? = true ↔ ∀ r ∈ regions, ∀ i ∈ r.consumers, ∀ j ∈ r.consumers,
      ∀ l ∈ f.events[i]?.bind location?, ∀ m ∈ f.events[j]?.bind location?, l = m := by
  have used {id : String} {r : Region f.size} (place : (id, r) ∈ a.places) (l : Location) :
      (∃ t ∈ a.net.transitions, t.id ∈ a.net.postset id ∧ location? t.label = some l) ↔
        ∃ i ∈ r.consumers, l ∈ f.events[i]?.bind location? := by
    simp only [made.transitions_eq, List.mem_map, exists_exists_and_eq_and,
      made.mem_postset_iff place wf]
    constructor
    · rintro ⟨e, _, ⟨i, consumes, at_i⟩, found⟩
      exact ⟨i, consumes, Option.bind_eq_some_iff.2 ⟨e, at_i, found⟩⟩
    · rintro ⟨i, consumes, found⟩
      obtain ⟨e, at_i, found⟩ := Option.bind_eq_some_iff.1 found
      exact ⟨e, List.mem_of_getElem? at_i, ⟨i, consumes, at_i⟩, found⟩
  simp only [Net.isDistributed, List.all_eq_true, List.mem_filterMap, List.mem_filter,
    List.contains_iff_mem, beq_iff_eq, and_assoc]
  refine made.forall_places_iff (P := fun id => ∀ l,
    (∃ t ∈ a.net.transitions, t.id ∈ a.net.postset id ∧ location? t.label = some l) →
    ∀ m, (∃ t ∈ a.net.transitions, t.id ∈ a.net.postset id ∧ location? t.label = some m) →
      l = m) fun id r place => ?_
  simp only [used place]
  constructor
  · exact fun one i hi j hj l at_i m at_j => one l ⟨i, hi, at_i⟩ m ⟨j, hj, at_j⟩
  · rintro one l ⟨i, hi, at_i⟩ m ⟨j, hj, at_j⟩
    exact one i hi j hj l at_i m at_j

end Properties

end Assembly.MadeOf

/-! ### Checks of nets and of regions -/

namespace Frame

variable {regions : List (Region f.size)} {ls : Locations} {location? : Event → Option Location}

/-- A list by positions and a table by names give every event a location, and the same one. -/
def LocatesAll (f : Frame) (ls : Locations) (location? : Event → Option Location) : Prop :=
  ∀ (i : Nat) (e : Event), f.events[i]? = some e →
    ∃ l, ls[i]? = some (some l) ∧ location? e = some l

/-- The check of a region for a class and locations has an answer for every region, and the
answers are all positive just if the verdict on a net is. -/
def Agree (f : Frame) (regions : List (Region f.size)) (c : NetClass) (ls : Option Locations)
    (verdict : Bool) : Prop :=
  (∀ r ∈ regions, ∃ passes, f.satisfies? r c ls = .ok passes) ∧
    (verdict = true ↔ ∀ r ∈ regions, f.satisfies? r c ls = .ok true)

/-- Each check of a net agrees with the check of regions that asks for the same and nothing else. -/
structure SameVerdicts (f : Frame) (regions : List (Region f.size)) (net : Net) : Prop where
  pure : f.Agree regions { pure := true } none net.isPure
  plain : f.Agree regions { plain := true } none net.isPlain
  tNet : f.Agree regions { tNet := true } none net.isPlainTNet
  outputNonbranching : f.Agree regions { outputNonbranching := true } none net.isOutputNonbranching
  conflictFree : f.Agree regions { conflictFree := true } none net.isConflictFree
  distributed : ∀ ls location?, f.LocatesAll ls location? →
    f.Agree regions .all (some ls) (net.isDistributed location?)

theorem agree_of_inClass {c : NetClass} {verdict : Bool}
    (same : verdict = true ↔ ∀ r ∈ regions, f.inClass r c = true) :
    f.Agree regions c none verdict := by
  simp only [Agree, satisfies?_none, Except.ok.injEq]
  exact ⟨fun r _ => ⟨_, rfl⟩, same⟩

theorem agree_of_isLocal {verdict : Bool} (enough : f.size ≤ ls.length)
    (same : verdict = true ↔ ∀ r ∈ regions, isLocal r ls = true) :
    f.Agree regions .all (some ls) verdict := by
  have anything (r : Region f.size) : f.satisfies r .all ls = isLocal r ls := by
    simp [satisfies, inClass, NetClass.all]
  simp only [Agree, satisfies?_some enough, anything, Except.ok.injEq]
  exact ⟨fun r _ => ⟨_, rfl⟩, same⟩

theorem LocatesAll.isLocal_iff (located : f.LocatesAll ls location?) {r : Region f.size} :
    isLocal r ls = true ↔ ∀ i ∈ r.consumers, ∀ j ∈ r.consumers,
      ∀ l ∈ f.events[i]?.bind location?, ∀ m ∈ f.events[j]?.bind location?, l = m := by
  rw [Frame.isLocal_iff]
  refine forall₂_congr fun i hi => forall₂_congr fun j hj => ?_
  obtain ⟨e, at_i⟩ := exists_event (mem_consumers.1 hi).1
  obtain ⟨e', at_j⟩ := exists_event (mem_consumers.1 hj).1
  obtain ⟨l, listed, found⟩ := located i e at_i
  obtain ⟨m, listed', found'⟩ := located j e' at_j
  simp [at_i, at_j, listed, listed', found, found']

theorem LocatesAll.enough (located : f.LocatesAll ls location?) : f.size ≤ ls.length := by
  by_contra few
  obtain ⟨e, at_i⟩ := exists_event (Nat.not_le.1 few)
  obtain ⟨l, listed, _⟩ := located _ e at_i
  simp at listed

end Frame

/-- The checks of a net that has been made of regions agree with those of the regions. -/
theorem Frame.sameVerdicts {regions : List (Region f.size)} {a : Assembly f.size}
    (wf : f.graph.WellFormed) (assembled : f.assemble regions = .ok a) :
    f.SameVerdicts regions a.net := by
  have made := madeOf_of_assemble assembled
  refine ⟨agree_of_inClass ?_, agree_of_inClass ?_, agree_of_inClass ?_, agree_of_inClass ?_,
    agree_of_inClass ?_, fun ls location? located => agree_of_isLocal located.enough ?_⟩
  · rw [made.isPure_iff wf]
    simp [inClass]
  · rw [made.isPlain_iff]
    simp [inClass]
  · rw [made.isPlainTNet_iff wf]
    simp [inClass]
  · rw [made.isOutputNonbranching_iff wf]
    simp [inClass]
  · rw [made.isConflictFree_iff wf]
    simp [inClass]
  · rw [made.isDistributed_iff wf]
    exact forall₂_congr fun r _ => located.isLocal_iff.symm

def lendingRegions : List (Region Synthesis.toggleFrame.size) :=
  [⟨[⟨1, 1⟩, ⟨1, 1⟩], 1, by decide⟩, ⟨[⟨0, 1⟩, ⟨0, 0⟩], 0, by decide⟩]

theorem Frame.sameVerdicts_lending : ∃ a, Synthesis.toggleFrame.graph.WellFormed ∧
    Synthesis.toggleFrame.assemble lendingRegions = .ok a ∧ a.net.isPure = false ∧
      a.net.isConflictFree = true ∧ Synthesis.toggleFrame.SameVerdicts lendingRegions a.net := by
  have check : ((Synthesis.toggleFrame.assemble lendingRegions).toOption.any fun a =>
      !a.net.isPure && a.net.isConflictFree) = true := by decide +kernel
  obtain ⟨a, assembled, both⟩ := exists_of_any check
  obtain ⟨pure, conflictFree⟩ := Bool.and_eq_true_iff.1 both
  have wf : Synthesis.toggleFrame.graph.WellFormed := Synthesis.toggle_wellFormed
  exact ⟨a, wf, assembled, by simpa using pure, conflictFree, Frame.sameVerdicts wf assembled⟩

end NetSynthesis
