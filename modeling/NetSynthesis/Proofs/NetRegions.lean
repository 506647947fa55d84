import Mathlib.Data.List.Perm.Subperm
import NetSynthesis.NetProperties
import NetSynthesis.Proofs.LabelledNet
import NetSynthesis.Proofs.RunCompleteness

/-! The places of a net as regions. If a net has one transition for every event and its markings
follow the states of a system, each place is a region of the system, with the tokens that the place
holds in each state. The regions have the properties that the net has, and together they solve all
the problems of a synthesis. -/
namespace NetSynthesis

namespace Net

variable {net : Net} {c : NetClass} {limit : Nat} {events : List Event} {e : Event}

/-- A net has the properties that a class asks for. -/
structure InClass (net : Net) (c : NetClass) : Prop where
  pure : c.pure = true → net.isPure = true
  plain : c.plain = true → net.isPlain = true
  bounded : ∀ k ∈ c.bound, ∀ m : Marking, net.behaviour.Reaches m → ∀ x ∈ m, x ≤ k
  tNet : c.tNet = true → net.isPlainTNet = true
  outputNonbranching : c.outputNonbranching = true → net.isOutputNonbranching = true
  conflictFree : c.conflictFree = true → net.isConflictFree = true

/-- A net in a class with one transition for every event and no arc heavier than a limit. -/
structure Admissible (net : Net) (events : List Event) (c : NetClass) (limit : Nat) : Prop where
  wellFormed : net.WellFormed
  labels : (net.transitions.map (·.label)).Perm events
  light : ∀ flow ∈ net.flows, flow.weight ≤ limit
  inClass : net.InClass c

theorem weight_le {k : Nat} (light : ∀ flow ∈ net.flows, flow.weight ≤ k) (source target : String) :
    net.weight source target ≤ k := by
  rw [weight]
  cases found : net.flows.find? fun f => f.source == source && f.target == target with
  | none => exact Nat.zero_le k
  | some flow => exact light flow (List.mem_of_find?_eq_some found)

theorem weight_le_one (plain : net.isPlain = true) (source target : String) :
    net.weight source target ≤ 1 := by
  refine weight_le (fun flow member => ?_) source target
  exact (beq_iff_eq.1 (List.all_eq_true.1 plain flow member)).le

namespace Admissible

variable (admissible : net.Admissible events c limit) (nodup : events.Nodup)

include admissible nodup

theorem labelled : net.Labelled := admissible.labels.symm.nodup nodup

theorem exists_transition (known : e ∈ events) :
    ∃ t ∈ net.transitions, t.label = e ∧ t.id = net.transitionOf e := by
  obtain ⟨t, member, rfl⟩ := List.mem_map.1 (admissible.labels.symm.subset known)
  exact ⟨t, member, rfl, ((admissible.labelled nodup).transitionOf_eq member).symm⟩

theorem transitionOf_inj {e' : Event} (known : e ∈ events) (known' : e' ∈ events)
    (same : net.transitionOf e = net.transitionOf e') : e = e' := by
  obtain ⟨t, member, rfl, id⟩ := admissible.exists_transition nodup known
  obtain ⟨u, other, rfl, id'⟩ := admissible.exists_transition nodup known'
  have ids := (List.nodup_append'.1 admissible.wellFormed.nodes_nodup).2.1
  rw [List.inj_on_of_nodup_map ids member other (id.trans (same.trans id'.symm))]

theorem edge_iff {m k : Marking} : net.behaviour.Edge m e k ↔
    e ∈ events ∧ net.fire m (net.transitionOf e) = .ok k := by
  rw [(admissible.labelled nodup).edge_iff, admissible.labels.mem_iff]

end Admissible

end Net

namespace Frame

open LabelledGraph

variable {f : Frame} {net : Net} {root : State} {c : NetClass} {ls : Locations} {limit : Nat}
  {marking : State → Marking} {p : Place} {s t : State} {e : Event} {i : Nat}

/-- The region of a place: its tokens, and what each event takes from it and puts on it. -/
def placeRegion (f : Frame) (net : Net) (p : Place) : Region f.size :=
  ⟨f.events.map fun e =>
      ⟨net.weight p.id (net.transitionOf e), net.weight (net.transitionOf e) p.id⟩,
    p.tokens, by simp [events]⟩

theorem weightAt_placeRegion (at_i : f.events[i]? = some e) : (f.placeRegion net p).weightAt i =
    ⟨net.weight p.id (net.transitionOf e), net.weight (net.transitionOf e) p.id⟩ := by
  simp [placeRegion, Region.weightAt, at_i]

theorem weightOf_placeRegion (rooted : f.Rooted root) (known : e ∈ f.events) :
    f.weightOf (f.placeRegion net p) e =
      ⟨net.weight p.id (net.transitionOf e), net.weight (net.transitionOf e) p.id⟩ := by
  obtain ⟨i, index, _⟩ := rooted.eventIndex?_of_mem known
  rw [weightOf, index, Option.map_some, Option.getD_some,
    weightAt_placeRegion (rooted.eventIndex?_eq_some.1 index)]

section Tracking

variable (rooted : f.Rooted root) (admissible : net.Admissible f.events c limit)
  (tracks : Tracks (f.graph.behaviour root) net.behaviour marking)

include rooted admissible tracks

theorem fire_arc {a : Arc} (arc : a ∈ f.graph.arcs) (source : f.isReachable a.source = true) :
    net.fire (marking a.source) (net.transitionOf a.label) = .ok (marking a.target) := by
  have edge := tracks.forth _ _ _ (rooted.isReachable_iff_reaches.1 source) ⟨a, arc, rfl, rfl, rfl⟩
  exact ((admissible.edge_iff rooted.wellFormed.alphabet_nodup).1 edge).2

/-- The marking of a state lists the tokens that the regions of the places have there. -/
theorem marking_eq (found : f.isReachable s = true) :
    marking s = net.places.map fun p => f.tokens (f.placeRegion net p) s := by
  refine rooted.induction
    (P := fun s => marking s = net.places.map fun p => f.tokens (f.placeRegion net p) s) ?_ ?_ found
  · refine Eq.trans tracks.initial (List.map_congr_left fun p _ => ?_)
    exact (rooted.tokens_root (f.placeRegion net p)).symm
  · intro a arc source tree same
    have fired := fire_arc rooted admissible tracks arc source
    rw [same, Net.fire_map_iff (List.map_id' _).symm] at fired
    rw [← fired.2]
    apply List.map_congr_left
    intro p _
    rw [rooted.tokens_tree _ source arc tree,
      weightOf_placeRegion rooted (rooted.wellFormed.labels_mem a arc), Weight.effect]
    simp only
    omega

theorem arc_tokens {a : Arc} (arc : a ∈ f.graph.arcs) (source : f.isReachable a.source = true)
    (member : p ∈ net.places) :
    ((f.weightOf (f.placeRegion net p) a.label).backward : Int) ≤
        f.tokens (f.placeRegion net p) a.source ∧
      f.tokens (f.placeRegion net p) a.target = f.tokens (f.placeRegion net p) a.source +
        (f.weightOf (f.placeRegion net p) a.label).effect := by
  have fired := fire_arc rooted admissible tracks arc source
  rw [marking_eq rooted admissible tracks source,
    marking_eq rooted admissible tracks (rooted.isReachable_target source arc),
    Net.fire_map_iff (List.map_id' _).symm] at fired
  rw [weightOf_placeRegion rooted (rooted.wellFormed.labels_mem a arc), Weight.effect]
  refine ⟨fired.1 p member, ?_⟩
  have after := List.map_inj_left.1 fired.2 p member
  simp only
  omega

theorem placeRegion_valid (member : p ∈ net.places) : f.Valid (f.placeRegion net p) := by
  have arcs {a : Arc} (arc : a ∈ f.graph.arcs) (source : f.isReachable a.source = true) :=
    arc_tokens rooted admissible tracks arc source member
  refine ⟨Int.natCast_nonneg _, fun s found => ?_, fun s found a edge => ?_,
    fun s found a edge => ?_⟩
  · refine rooted.induction (P := fun s => 0 ≤ f.tokens (f.placeRegion net p) s) ?_ ?_ found
    · rw [rooted.tokens_root]
      exact Int.natCast_nonneg _
    · intro a arc source _ _
      obtain ⟨enough, step⟩ := arcs arc source
      rw [step, Weight.effect]
      omega
  · obtain ⟨arc, rfl⟩ := rooted.wellFormed.mem_outgoing.1 edge
    exact (arcs arc found).1
  · obtain ⟨arc, rfl⟩ := rooted.wellFormed.mem_outgoing.1 edge
    exact (arcs arc found).2

/-- What an event cannot do in a state some place prevents. -/
theorem exists_disables (found : f.isReachable s = true) (known : e ∈ f.events)
    (none : ∀ a ∈ f.graph.outgoing s, a.label ≠ e) :
    ∃ p ∈ net.places, f.disables (f.placeRegion net p) s e = true := by
  by_contra missing
  have enough : ∀ p ∈ net.places,
      (net.weight p.id (net.transitionOf e) : Int) ≤ f.tokens (f.placeRegion net p) s := by
    intro p member
    by_contra short
    refine missing ⟨p, member, disables_iff.2 ⟨found, ?_⟩⟩
    rw [weightOf_placeRegion rooted known]
    exact Int.not_le.1 short
  have fired := (Net.fire_map_iff (List.map_id' _).symm).2 ⟨enough, rfl⟩
  rw [← marking_eq rooted admissible tracks found] at fired
  have edge := (admissible.edge_iff rooted.wellFormed.alphabet_nodup).2 ⟨known, fired⟩
  obtain ⟨_, ⟨a, arc, source, label, _⟩, _⟩ :=
    tracks.back s e _ (rooted.isReachable_iff_reaches.1 found) edge
  exact none a (rooted.wellFormed.mem_outgoing.2 ⟨arc, source⟩) label

theorem exists_separates (hs : f.isReachable s = true) (ht : f.isReachable t = true)
    (differ : marking s ≠ marking t) :
    ∃ p ∈ net.places, f.separates (f.placeRegion net p) s t = true := by
  by_contra missing
  apply differ
  rw [marking_eq rooted admissible tracks hs, marking_eq rooted admissible tracks ht]
  apply List.map_congr_left
  intro p member
  by_contra tokens
  exact missing ⟨p, member, separates_iff.2 ⟨hs, ht, tokens⟩⟩

theorem tokens_le {k : Int} (bounded : ∀ m : Marking, net.behaviour.Reaches m → ∀ x ∈ m, x ≤ k)
    (member : p ∈ net.places) : f.bound (f.placeRegion net p) ≤ k := by
  apply (bound_le_iff rooted).2
  intro s found
  have reached := tracks.reaches_image (rooted.isReachable_iff_reaches.1 found)
  apply bounded _ reached _
  rw [marking_eq rooted admissible tracks found]
  exact List.mem_map_of_mem member

end Tracking

/-! ### Classes -/

theorem placeRegion_isPlain (plain : net.isPlain = true) :
    (f.placeRegion net p).isPlain = true := by
  apply Region.isPlain_iff.2
  intro i inside
  obtain ⟨e, at_i⟩ := exists_event inside
  rw [weightAt_placeRegion at_i]
  exact ⟨Net.weight_le_one plain _ _, Net.weight_le_one plain _ _⟩

theorem lookup_zip {events : List Event} (nodup : events.Nodup) {ls : Locations}
    {l : Option Location} (at_i : events[i]? = some e) (place : ls[i]? = some l) :
    (events.zip ls).lookup e = some l := by
  induction events generalizing ls i with
  | nil => simp at at_i
  | cons e' events ih =>
    cases ls with
    | nil => simp at place
    | cons l' ls =>
      obtain ⟨fresh, nodup⟩ := List.nodup_cons.1 nodup
      cases i with
      | zero =>
        obtain rfl : e' = e := by simpa using at_i
        obtain rfl : l' = l := by simpa using place
        simp
      | succ i =>
        have later : events[i]? = some e := by simpa using at_i
        have differ : e ≠ e' := fun same => fresh (same ▸ List.mem_of_getElem? later)
        rw [List.zip_cons_cons, List.lookup_cons, beq_false_of_ne differ]
        exact ih nodup later (by simpa using place)

/-- Events that take from a place put back on it if its outputs are inputs. -/
theorem mem_producers_of_inputs (wf : net.WellFormed)
    (back : ∀ id ∈ net.postset p.id, id ∈ net.preset p.id)
    (consumes : i ∈ (f.placeRegion net p).consumers) :
    i ∈ (f.placeRegion net p).producers := by
  obtain ⟨inside, takes⟩ := SeparationProgram.mem_consumers.1 consumes
  obtain ⟨e, at_i⟩ := exists_event inside
  rw [weightAt_placeRegion at_i] at takes
  have input := back _ (wf.mem_postset.2 takes)
  refine SeparationProgram.mem_producers.2 ⟨inside, ?_⟩
  rw [weightAt_placeRegion at_i]
  exact wf.mem_preset.1 input

section Classes

variable (nodup : f.events.Nodup) (admissible : net.Admissible f.events c limit)

include nodup admissible

theorem length_positions_le {q : Nat → Bool} {ids : List String}
    (among : ∀ i e, f.events[i]? = some e → q i = true → net.transitionOf e ∈ ids) :
    ((List.range f.size).filter q).length ≤ ids.length := by
  let name (i : Nat) : String := net.transitionOf (f.events[i]?.getD "")
  have different : (((List.range f.size).filter q).map name).Nodup := by
    refine List.Nodup.map_on (fun i hi j hj same => ?_) (List.nodup_range.filter _)
    obtain ⟨e, at_i⟩ := exists_event (List.mem_range.1 (List.mem_of_mem_filter hi))
    obtain ⟨e', at_j⟩ := exists_event (List.mem_range.1 (List.mem_of_mem_filter hj))
    simp only [name, at_i, at_j, Option.getD_some] at same
    obtain rfl := admissible.transitionOf_inj nodup (List.mem_of_getElem? at_i)
      (List.mem_of_getElem? at_j) same
    exact (List.getElem?_inj (List.getElem?_eq_some_iff.1 at_i).1 nodup).1 (at_i.trans at_j.symm)
  have inside : ((List.range f.size).filter q).map name ⊆ ids := by
    intro x member
    obtain ⟨i, listed, rfl⟩ := List.mem_map.1 member
    obtain ⟨range, holds⟩ := List.mem_filter.1 listed
    obtain ⟨e, at_i⟩ := exists_event (List.mem_range.1 range)
    simpa [name, at_i] using among i e at_i holds
  rw [← List.length_map name]
  exact (different.subperm inside).length_le

theorem length_consumers_le :
    (f.placeRegion net p).consumers.length ≤ (net.postset p.id).length := by
  apply length_positions_le nodup admissible
  intro i e at_i takes
  rw [weightAt_placeRegion at_i] at takes
  exact admissible.wellFormed.mem_postset.2 (of_decide_eq_true takes)

theorem length_producers_le :
    (f.placeRegion net p).producers.length ≤ (net.preset p.id).length := by
  apply length_positions_le nodup admissible
  intro i e at_i puts
  rw [weightAt_placeRegion at_i] at puts
  exact admissible.wellFormed.mem_preset.2 (of_decide_eq_true puts)

theorem placeRegion_isPure (pure : net.isPure = true) : (f.placeRegion net p).isPure = true := by
  apply Region.isPure_iff.2
  intro i inside
  obtain ⟨e, at_i⟩ := exists_event inside
  obtain ⟨t, listed, _, id⟩ := admissible.exists_transition nodup (List.mem_of_getElem? at_i)
  rw [weightAt_placeRegion at_i, ← id]
  by_contra both
  obtain ⟨puts, takes⟩ := not_or.1 both
  have input : p.id ∈ net.preset t.id :=
    admissible.wellFormed.mem_preset.2 (Nat.pos_of_ne_zero takes)
  have output : p.id ∈ net.postset t.id :=
    admissible.wellFormed.mem_postset.2 (Nat.pos_of_ne_zero puts)
  simp only [Net.isPure, List.all_eq_true] at pure
  simpa [output] using pure t listed p.id input

theorem placeRegion_connected (member : p ∈ net.places) :
    SeparationProgram.Connected c (f.placeRegion net p) := by
  have consumers := length_consumers_le (p := p) nodup admissible
  have producers := length_producers_le (p := p) nodup admissible
  refine ⟨fun given => ?_, fun given => ?_, fun given => ?_, fun given => ?_⟩
  · exact placeRegion_isPure nodup admissible (admissible.inClass.pure given)
  · have shape := admissible.inClass.tNet given
    simp only [Net.isPlainTNet, Bool.and_eq_true, List.all_eq_true, decide_eq_true_eq] at shape
    have few := shape.2 p member
    omega
  · have shape := admissible.inClass.outputNonbranching given
    simp only [Net.isOutputNonbranching, List.all_eq_true, decide_eq_true_eq] at shape
    have few := shape p member
    omega
  · have shape := admissible.inClass.conflictFree given
    simp only [Net.isConflictFree, List.all_eq_true, Bool.or_eq_true, decide_eq_true_eq,
      List.contains_iff_mem] at shape
    rcases shape p member with few | back
    · left; omega
    · right; exact fun i consumes => mem_producers_of_inputs admissible.wellFormed back consumes

theorem placeRegion_isLocal (member : p ∈ net.places) (located : f.locations = .ok ls)
    (distributed : net.isDistributed (fun e => ((f.events.zip ls).lookup e).join) = true) :
    isLocal (f.placeRegion net p) ls = true := by
  obtain ⟨length, none | placed⟩ := locations_uniform located
  · exact isLocal_of_none none
  have output {i : Nat} (consumes : i ∈ (f.placeRegion net p).consumers) :
      ∃ l, ls[i]? = some (some l) ∧ ∃ t ∈ net.transitions, t.id ∈ net.postset p.id ∧
        ((f.events.zip ls).lookup t.label).join = some l := by
    obtain ⟨inside, takes⟩ := SeparationProgram.mem_consumers.1 consumes
    obtain ⟨e, at_i⟩ := exists_event inside
    obtain ⟨l, place⟩ : ∃ l, ls[i]? = some l := ⟨_, List.getElem?_eq_getElem (length ▸ inside)⟩
    obtain ⟨site, rfl⟩ := Option.ne_none_iff_exists'.1 (placed l (List.mem_of_getElem? place))
    obtain ⟨t, listed, rfl, id⟩ := admissible.exists_transition nodup (List.mem_of_getElem? at_i)
    rw [weightAt_placeRegion at_i, ← id] at takes
    refine ⟨site, place, t, listed, admissible.wellFormed.mem_postset.2 takes, ?_⟩
    rw [lookup_zip nodup at_i place, Option.join_some]
  apply isLocal_iff.2
  intro i hi j hj
  obtain ⟨l, at_i, t, listed, feeds, site⟩ := output hi
  obtain ⟨m, at_j, u, other, feeds', site'⟩ := output hj
  simp only [Net.isDistributed, List.all_eq_true, List.mem_filterMap, List.mem_filter, beq_iff_eq,
    List.contains_iff_mem] at distributed
  rw [at_i, at_j, distributed p member l ⟨t, ⟨listed, feeds⟩, site⟩ m ⟨u, ⟨other, feeds'⟩, site'⟩]

end Classes

/-! ### Solutions -/

section Solutions

variable (rooted : f.Rooted root) (admissible : net.Admissible f.events c limit)
  (tracks : Tracks (f.graph.behaviour root) net.behaviour marking)
  (located : f.locations = .ok ls)
  (distributed : net.isDistributed (fun e => ((f.events.zip ls).lookup e).join) = true)

include rooted admissible tracks located distributed

/-- The places of a net are regions that the searches are complete for. -/
theorem placeRegion_eligible (member : p ∈ net.places) :
    f.Eligible c ls limit (f.placeRegion net p) := by
  have nodup : f.events.Nodup := rooted.wellFormed.alphabet_nodup
  have plain : c.plain = true ∨ c.tNet = true → (f.placeRegion net p).isPlain = true := by
    rintro (given | given)
    · exact placeRegion_isPlain (admissible.inClass.plain given)
    · have shape := admissible.inClass.tNet given
      exact placeRegion_isPlain (Bool.and_eq_true_iff.1 shape).1
  refine ⟨placeRegion_valid rooted admissible tracks member, inClass_iff.2
    ⟨placeRegion_connected nodup admissible member, plain, fun k given => ?_⟩,
    placeRegion_isLocal nodup admissible member located distributed,
    fits_of_light (fun i inside => ?_) plain⟩
  · exact tokens_le rooted admissible tracks (admissible.inClass.bounded k given) member
  · obtain ⟨e, at_i⟩ := exists_event inside
    rw [weightAt_placeRegion at_i]
    exact ⟨Net.weight_le admissible.light _ _, Net.weight_le admissible.light _ _⟩

/-- A net that follows a system solves all of its problems, those of states too if they have
different markings. -/
theorem solvable {languageOnly : Bool}
    (apart : languageOnly = false → ∀ s t, f.isReachable s = true → f.isReachable t = true →
      marking s = marking t → s = t)
    (reachable : languageOnly = false → ∀ s ∈ f.graph.states, f.isReachable s = true) :
    Synthesis.Solvable f c ls limit languageOnly := by
  have eligible {p : Place} (member : p ∈ net.places) :=
    placeRegion_eligible rooted admissible tracks located distributed member
  refine ⟨fun s e found known none => ?_, fun both s t hs ht differ => ?_, reachable⟩
  · obtain ⟨p, member, disables⟩ := exists_disables rooted admissible tracks found known none
    exact ⟨_, eligible member, disables⟩
  · obtain ⟨p, member, separates⟩ := exists_separates rooted admissible tracks hs ht
      fun same => differ (apart both s t hs ht same)
    exact ⟨_, eligible member, separates⟩

end Solutions

end Frame

end NetSynthesis
