import NetSynthesis.Proofs.AssembledNet
import NetSynthesis.Proofs.FreshNames

/-! When regions can be made into a net. The places are named `p0`, `p1` and so on in turn, with no
regard to the transitions, so that a net is made if and only if no event has one of the names that
are needed. Otherwise the first place whose name is taken is refused. -/
namespace NetSynthesis

/-- The generated name of a place with `k` places before it. -/
def placeName (k : Nat) : String := "p" ++ toString k

theorem placeName_inj {j k : Nat} (same : placeName j = placeName k) : j = k :=
  repr_injective ((String.append_right_inj "p").1 same)

theorem freshName_of_free {stem : String} {start : Nat} {taken : List String}
    (free : stem ++ toString start ∉ taken) :
    freshName stem start taken = stem ++ toString start := by
  unfold freshName
  cases taken.length with
  | zero => rfl
  | succ n =>
    have unused : taken.contains (stem ++ toString start) = false := by simpa using free
    simp only [firstFree, unused, Bool.false_eq_true, if_false]

namespace Net

variable {net : Net} {source target : String} {k weight : Nat} {tokens : Int}

/-- The places are those that get generated names one after the other. -/
def Numbered (net : Net) (k : Nat) : Prop :=
  net.places.map (·.id) = (List.range k).map placeName

theorem Numbered.hasPlace_iff (numbered : net.Numbered k) {j : Nat} :
    net.hasPlace (placeName j) = true ↔ j < k := by
  rw [Net.hasPlace_iff, numbered, List.mem_map]
  constructor
  · rintro ⟨i, bound, same⟩
    obtain rfl := placeName_inj same
    exact List.mem_range.1 bound
  · intro bound
    exact ⟨j, List.mem_range.2 bound, rfl⟩

theorem Numbered.generated (numbered : net.Numbered k) :
    freshName "p" net.places.length (net.places.map (·.id)) = placeName k := by
  have count : net.places.length = k := by simpa using congrArg List.length numbered
  have free : placeName k ∉ net.places.map (·.id) := by
    rw [← Net.hasPlace_iff, numbered.hasPlace_iff]
    exact Nat.lt_irrefl k
  rw [count]
  exact freshName_of_free free

/-- A place with a generated name is made unless a transition has the name. -/
theorem Numbered.addPlace (numbered : net.Numbered k) (nonneg : 0 ≤ tokens) :
    net.addPlace none tokens =
      if net.hasTransition (placeName k) then .error (.duplicateNode (placeName k))
      else .ok ({ net with places := net.places ++ [⟨placeName k, tokens.toNat⟩] },
        ⟨placeName k, tokens.toNat⟩) := by
  have noPlace : net.hasPlace (placeName k) = false := by
    rw [← Bool.not_eq_true, numbered.hasPlace_iff]
    exact Nat.lt_irrefl k
  have positive : ¬ tokens < 0 := Int.not_lt.2 nonneg
  unfold Net.addPlace
  simp [numbered.generated, hasNode, noPlace, positive]

/-- No arc joins two nodes, in either direction. -/
def Apart (net : Net) (source target : String) : Prop :=
  ∀ f ∈ net.flows, ¬ (f.source = source ∧ f.target = target) ∧
    ¬ (f.source = target ∧ f.target = source)

theorem addFlow_of_apart (ends : net.hasNode source = true ∧ net.hasNode target = true)
    (across : net.hasPlace source ≠ net.hasPlace target) (positive : weight ≠ 0)
    (fresh : ∀ f ∈ net.flows, ¬ (f.source = source ∧ f.target = target)) :
    net.addFlow source target weight =
      .ok ({ net with flows := net.flows ++ [⟨source, target, weight⟩] },
        ⟨source, target, weight⟩) := by
  have light : ¬ (weight : Int) < 1 := by omega
  have new : net.flows.any (fun f => f.source == source && f.target == target) = false := by
    rw [List.any_eq_false]
    intro f member
    simpa using fresh f member
  have sides : (net.hasPlace source == net.hasPlace target) = false := by simpa using across
  unfold addFlow
  simp [ends, sides, light, new]

theorem WellFormed.hasPlace_eq_false (wf : net.WellFormed)
    (isTransition : net.hasTransition source = true) : net.hasPlace source = false := by
  rw [← Bool.not_eq_true, Net.hasPlace_iff]
  intro isPlace
  have disjoint := (List.nodup_append'.1 wf.nodes_nodup).2.2
  exact disjoint isPlace (Net.hasTransition_iff.1 isTransition)

theorem WellFormed.apart (wf : net.WellFormed) (new : net.hasNode source = false)
    (target : String) : net.Apart source target := by
  intro f member
  obtain ⟨noPlace, noTransition⟩ := Bool.or_eq_false_iff.1 new
  refine ⟨fun ⟨same, _⟩ => ?_, fun ⟨_, same⟩ => ?_⟩
  · subst same
    rcases wf.flow_ends f member with ⟨isPlace, _⟩ | ⟨isTransition, _⟩
    · exact Bool.false_ne_true (noPlace.symm.trans isPlace)
    · exact Bool.false_ne_true (noTransition.symm.trans isTransition)
  · subst same
    rcases wf.flow_ends f member with ⟨_, isTransition⟩ | ⟨_, isPlace⟩
    · exact Bool.false_ne_true (noTransition.symm.trans isTransition)
    · exact Bool.false_ne_true (noPlace.symm.trans isPlace)

theorem WellFormed.mem_flows_iff (wf : net.WellFormed) :
    (⟨source, target, weight⟩ : Flow) ∈ net.flows ↔
      0 < weight ∧ net.weight source target = weight := by
  constructor
  · intro member
    exact ⟨wf.weight_pos _ member, wf.weight_eq member⟩
  · rintro ⟨positive, rfl⟩
    obtain ⟨flow, member, rfl, rfl⟩ := wf.weight_pos_iff.1 positive
    rw [wf.weight_eq member]
    exact member

end Net

namespace Assembly

open Net

variable {n k : Nat} {events : List Event} {net : Net} {a : Assembly n} {r : Region n}
  {regions : List (Region n)} {place : String}

theorem addFlow_of_apart {source target : String} (weight : Nat)
    (ends : net.hasNode source = true ∧ net.hasNode target = true)
    (across : net.hasPlace source ≠ net.hasPlace target)
    (fresh : ∀ f ∈ net.flows, ¬ (f.source = source ∧ f.target = target)) :
    addFlow net source target weight = .ok { net with
      flows := net.flows ++ if weight = 0 then [] else [⟨source, target, weight⟩] } := by
  unfold addFlow
  by_cases zero : weight = 0
  · simp [zero]
  · simp [zero, Net.addFlow_of_apart ends across zero fresh, Except.map]

theorem connect_of_apart {e : Event} (w : Weight) (isPlace : net.hasPlace place = true)
    (isTransition : net.hasTransition e = true) (other : net.hasPlace e = false)
    (apart : net.Apart place e) : connect place net (e, w) =
      .ok { net with flows := net.flows ++ flowsWith place (e, w) } := by
  have differ : place ≠ e := by
    rintro rfl
    exact Bool.false_ne_true (other.symm.trans isPlace)
  have nodes : net.hasNode place = true ∧ net.hasNode e = true := by
    simp [hasNode, isPlace, isTransition]
  have across : net.hasPlace place ≠ net.hasPlace e := by simp [isPlace, other]
  have taking := addFlow_of_apart w.backward nodes across fun f member => (apart f member).1
  have putting := @addFlow_of_apart { net with flows := net.flows ++
      if w.backward = 0 then [] else [⟨place, e, w.backward⟩] } e place w.forward nodes.symm
    across.symm fun f member => by
      rcases List.mem_append.1 member with old | new
      · exact (apart f old).2
      · split at new
        · simp at new
        · rw [List.mem_singleton.1 new]
          exact fun ends => differ ends.1
  refine bind_eq_ok.2 ⟨_, taking, ?_⟩
  simpa [flowsWith] using putting

theorem foldlM_connect_of_apart {entries : List (Event × Weight)}
    (nodup : (entries.map (·.1)).Nodup) (isPlace : net.hasPlace place = true)
    (transitions : ∀ e ∈ entries.map (·.1), net.hasTransition e = true ∧ net.hasPlace e = false)
    (apart : ∀ e ∈ entries.map (·.1), net.Apart place e) :
    entries.foldlM (connect place) net =
      .ok { net with flows := net.flows ++ entries.flatMap (flowsWith place) } := by
  induction entries generalizing net with
  | nil => simp [pure, Except.pure]
  | cons entry entries ih =>
    obtain ⟨e, w⟩ := entry
    obtain ⟨fresh, nodup⟩ := List.nodup_cons.1 nodup
    obtain ⟨isTransition, other⟩ := transitions e (by simp)
    have first := connect_of_apart w isPlace isTransition other (apart e (by simp))
    rw [List.foldlM_cons, first]
    refine (@ih { net with flows := net.flows ++ flowsWith place (e, w) } nodup isPlace
      (fun e' later => transitions e' (List.mem_cons_of_mem _ later)) ?_).trans (by simp)
    intro e' later f member
    have differ : e ≠ e' := fun same => fresh (same ▸ later)
    have notPlace : place ≠ e' := by
      rintro rfl
      have := (transitions place (List.mem_cons_of_mem _ later)).2
      exact Bool.false_ne_true (this.symm.trans isPlace)
    rcases List.mem_append.1 member with old | new
    · exact apart e' (List.mem_cons_of_mem _ later) f old
    · simp only [flowsWith, List.mem_append, List.mem_ite_nil_left, List.mem_singleton] at new
      rcases new with ⟨_, rfl⟩ | ⟨_, rfl⟩
      · exact ⟨fun ends => differ ends.2, fun ends => notPlace ends.1⟩
      · exact ⟨fun ends => notPlace ends.2, fun ends => differ ends.1⟩

/-! ### Regions in turn -/

/-- A net under way: all transitions, and the first `k` places. -/
structure UnderWay (events : List Event) (k : Nat) (a : Assembly n) : Prop where
  wellFormed : a.net.WellFormed
  transitions : a.net.transitions = events.map fun e => ⟨e, e⟩
  numbered : a.net.Numbered k

theorem UnderWay.hasTransition_iff (under : UnderWay events k a) {e : Event} :
    a.net.hasTransition e = true ↔ e ∈ events := by
  rw [Net.hasTransition_iff, under.transitions, List.map_map]
  simp

/-- The place of a region is refused if its name is an event. -/
theorem UnderWay.addRegion_taken (under : UnderWay events k a) (nonneg : 0 ≤ r.initial)
    (taken : placeName k ∈ events) :
    addRegion events a r = .error (.duplicateNode (placeName k)) := by
  have refused := under.numbered.addPlace nonneg
  rw [if_pos (under.hasTransition_iff.2 taken)] at refused
  exact bind_eq_error.2 (.inl refused)

theorem UnderWay.nodup (under : UnderWay events k a) : events.Nodup := by
  have names := (List.nodup_append'.1 under.wellFormed.nodes_nodup).2.1
  rw [under.transitions, List.map_map] at names
  exact (List.map_id events).symm ▸ names

theorem UnderWay.addRegion_free (under : UnderWay events k a) (size : events.length = n)
    (nonneg : 0 ≤ r.initial) (free : placeName k ∉ events) :
    ∃ b, addRegion events a r = .ok b ∧ UnderWay events (k + 1) b ∧
      b.places = a.places ++ [(placeName k, r)] := by
  have noTransition : a.net.hasTransition (placeName k) = false := by
    rw [← Bool.not_eq_true, under.hasTransition_iff]
    exact free
  have noPlace : a.net.hasPlace (placeName k) = false := by
    rw [← Bool.not_eq_true, under.numbered.hasPlace_iff]
    exact Nat.lt_irrefl k
  have placed := under.numbered.addPlace nonneg
  rw [noTransition, if_neg Bool.false_ne_true] at placed
  have wf := under.wellFormed.addPlace placed
  have keys : (events.zip r.weights).map (·.1) = events := by
    apply List.map_fst_zip
    rw [r.length_eq, size]
  have apart : ∀ e, a.net.Apart (placeName k) e :=
    under.wellFormed.apart (Bool.or_eq_false_iff.2 ⟨noPlace, noTransition⟩)
  have connected := @foldlM_connect_of_apart
    { a.net with places := a.net.places ++ [⟨placeName k, r.initial.toNat⟩] } (placeName k)
    (events.zip r.weights) (by rw [keys]; exact under.nodup) (by simp [Net.hasPlace])
    (fun e member => by
      have isTransition := under.hasTransition_iff.2 (keys ▸ member)
      exact ⟨isTransition, wf.hasPlace_eq_false isTransition⟩)
    fun e _ => apart e
  refine ⟨_, bind_eq_ok.2 ⟨_, placed, bind_eq_ok.2 ⟨_, connected, rfl⟩⟩, ⟨?_, ?_, ?_⟩, rfl⟩
  · exact (foldlM_connect wf connected).1
  · exact under.transitions
  · change (a.net.places ++ [_]).map _ = _
    rw [List.map_append, under.numbered, List.range_succ, List.map_append]
    rfl

section Regions

variable (size : events.length = n) (nonneg : ∀ r ∈ regions, 0 ≤ r.initial)

include size nonneg

theorem UnderWay.foldlM_addRegion_free (under : UnderWay events k a)
    (free : ∀ i < regions.length, placeName (k + i) ∉ events) :
    ∃ b, regions.foldlM (addRegion events) a = .ok b ∧
      UnderWay events (k + regions.length) b := by
  induction regions generalizing k a with
  | nil => exact ⟨a, rfl, under⟩
  | cons r regions ih =>
    obtain ⟨first, others⟩ := List.forall_mem_cons.1 nonneg
    obtain ⟨b, added, next, _⟩ := under.addRegion_free size first (free 0 (by simp))
    obtain ⟨c, rest, last⟩ := ih others next fun i bound => by
      have later := free (i + 1) (by simpa using bound)
      rwa [Nat.add_assoc, Nat.add_comm 1 i]
    refine ⟨c, ?_, ?_⟩
    · rw [List.foldlM_cons]
      exact bind_eq_ok.2 ⟨b, added, rest⟩
    · rwa [List.length_cons, Nat.add_comm regions.length 1, ← Nat.add_assoc]

theorem UnderWay.foldlM_addRegion_taken (under : UnderWay events k a) {j : Nat}
    (bound : j < regions.length) (taken : placeName (k + j) ∈ events)
    (free : ∀ i < j, placeName (k + i) ∉ events) :
    regions.foldlM (addRegion events) a = .error (.duplicateNode (placeName (k + j))) := by
  induction regions generalizing k a j with
  | nil => simp at bound
  | cons r regions ih =>
    obtain ⟨first, others⟩ := List.forall_mem_cons.1 nonneg
    rw [List.foldlM_cons]
    cases j with
    | zero => exact bind_eq_error.2 (.inl (under.addRegion_taken first taken))
    | succ j =>
      obtain ⟨b, added, next, _⟩ := under.addRegion_free size first (free 0 (Nat.succ_pos j))
      have shift (i : Nat) : k + 1 + i = k + (i + 1) := by omega
      refine bind_eq_error.2 (.inr ⟨b, added, ?_⟩)
      rw [← shift] at taken ⊢
      refine ih others next (Nat.lt_of_succ_lt_succ bound) taken fun i before => ?_
      rw [shift]
      exact free (i + 1) (Nat.succ_lt_succ before)

end Regions

/-! ### From the beginning -/

theorem foldlM_addTransition_total (noPlaces : net.places = [])
    (nodup : (net.transitions.map (·.id) ++ events).Nodup) :
    ∃ net', events.foldlM (fun net e => (net.addTransition e).map (·.1)) net = .ok net' := by
  induction events generalizing net with
  | nil => exact ⟨net, rfl⟩
  | cons e events ih =>
    have disjoint := (List.nodup_append'.1 nodup).2.2
    have fresh : net.hasNode e = false := by
      apply Net.hasNode_eq_false.2
      refine ⟨by simp [noPlaces], fun old => disjoint old ?_⟩
      exact List.mem_cons_self
    have added : net.addTransition e =
        .ok ({ net with transitions := net.transitions ++ [⟨e, e⟩] }, ⟨e, e⟩) := by
      simp [addTransition, fresh]
    obtain ⟨net', rest⟩ := @ih { net with transitions := net.transitions ++ [⟨e, e⟩] } noPlaces
      (by simpa using nodup)
    refine ⟨net', ?_⟩
    rw [List.foldlM_cons]
    exact bind_eq_ok.2 ⟨_, congrArg (Except.map (·.1)) added, rest⟩

theorem exists_underWay {f : Frame} (wf : f.graph.WellFormed) :
    ∃ net, f.events.foldlM (fun net e => (net.addTransition e).map (·.1))
      ({ name := f.graph.name } : Net) = .ok net ∧
        UnderWay f.events 0 ({ net } : Assembly f.size) := by
  obtain ⟨net, added⟩ := @foldlM_addTransition_total f.events { name := f.graph.name } rfl
    wf.alphabet_nodup
  obtain ⟨wellFormed, rfl⟩ := foldlM_addTransition (.empty f.graph.name) added
  exact ⟨_, added, wellFormed, rfl, rfl⟩

/-- A net as regions describe it. Each event has a transition and each region a place, in their
orders, the tokens and the weights are those of the regions, and there are no other arcs. -/
structure Realizes {f : Frame} (a : Assembly f.size) (regions : List (Region f.size)) : Prop where
  transitions : a.net.transitions = f.events.map fun e => ⟨e, e⟩
  places : a.places = ((List.range regions.length).map placeName).zip regions
  names : a.net.places.map (·.id) = a.places.map (·.1)
  tokens : a.net.initialMarking = regions.map (·.initial)
  weights : ∀ id r i e, (id, r) ∈ a.places → f.events[i]? = some e →
    a.net.weight id e = (r.weightAt i).backward ∧ a.net.weight e id = (r.weightAt i).forward
  flows : ∀ flow ∈ a.net.flows, 0 < flow.weight ∧
    a.net.weight flow.source flow.target = flow.weight
  wellFormed : a.net.WellFormed

theorem MadeOf.realizes {f : Frame} {a : Assembly f.size} {regions : List (Region f.size)}
    (wf : f.graph.WellFormed) (made : a.MadeOf regions)
    (numbered : a.net.Numbered regions.length) : a.Realizes regions := by
  have names : a.net.places.map (·.id) = a.places.map (·.1) := by
    rw [made.places_eq, List.map_map]
    rfl
  refine ⟨made.transitions_eq, ?_, names, made.initialMarking_eq, ?_, ?_, made.wellFormed⟩
  · exact List.zip_of_prod (names.symm.trans numbered) made.places
  · intro id r i e place at_i
    have known := List.mem_of_getElem? at_i
    rw [made.weight_backward wf known place, made.weight_forward wf known place,
      Frame.weightOf_eq wf at_i]
    exact ⟨rfl, rfl⟩
  · exact fun flow member => made.wellFormed.mem_flows_iff.1 member

end Assembly

open Assembly

variable {f : Frame} {regions : List (Region f.size)}

section Assemble

variable (wf : f.graph.WellFormed) (nonneg : ∀ r ∈ regions, 0 ≤ r.initial)

include wf nonneg

theorem Frame.assemble_taken {k : Nat} (bound : k < regions.length)
    (taken : placeName k ∈ f.events) (free : ∀ j < k, placeName j ∉ f.events) :
    f.assemble regions = .error (.duplicateNode (placeName k)) := by
  obtain ⟨net, transitions, under⟩ := exists_underWay wf
  have rest := under.foldlM_addRegion_taken rfl nonneg bound (by rwa [Nat.zero_add])
    fun j before => by rw [Nat.zero_add]; exact free j before
  rw [Nat.zero_add] at rest
  exact bind_eq_error.2 (.inr ⟨net, transitions, rest⟩)

theorem Frame.assemble_free (free : ∀ k < regions.length, placeName k ∉ f.events) :
    ∃ a, f.assemble regions = .ok a ∧ a.Realizes regions := by
  obtain ⟨net, transitions, under⟩ := exists_underWay wf
  obtain ⟨a, rest, last⟩ := under.foldlM_addRegion_free rfl nonneg fun k bound => by
    rw [Nat.zero_add]
    exact free k bound
  have made : f.assemble regions = .ok a := bind_eq_ok.2 ⟨net, transitions, rest⟩
  rw [Nat.zero_add] at last
  exact ⟨a, made, (madeOf_of_assemble made).realizes wf last.numbered⟩

/-- Assembly fails at a taken name only. -/
theorem Frame.assemble_cases : (∃ a, f.assemble regions = .ok a) ∨
    ∃ id, f.assemble regions = .error (.duplicateNode id) := by
  by_cases taken : ∃ k, k < regions.length ∧ placeName k ∈ f.events
  · obtain ⟨bound, member⟩ := Nat.find_spec taken
    refine .inr ⟨_, assemble_taken wf nonneg bound member fun j before other => ?_⟩
    exact Nat.find_min taken before ⟨before.trans bound, other⟩
  · obtain ⟨a, made, _⟩ := assemble_free wf nonneg fun k bound member => taken ⟨k, bound, member⟩
    exact .inl ⟨a, made⟩

/-- A net can be made of regions just if no event has one of the names that their places get, and
then it is as they describe it. Otherwise the first such name is refused. -/
theorem Frame.assemble_iff :
    ((∃ a, f.assemble regions = .ok a ∧ a.Realizes regions) ↔
      ∀ k < regions.length, placeName k ∉ f.events) ∧
    ∀ k < regions.length, placeName k ∈ f.events → (∀ j < k, placeName j ∉ f.events) →
      f.assemble regions = .error (.duplicateNode (placeName k)) := by
  refine ⟨⟨fun ⟨a, made, _⟩ k => ?_, assemble_free wf nonneg⟩,
    fun k bound taken free => assemble_taken wf nonneg bound taken free⟩
  induction k using Nat.strong_induction_on with
  | _ k earlier =>
    intro bound taken
    have failed := assemble_taken wf nonneg bound taken fun j before =>
      earlier j before (before.trans bound)
    simp [made] at failed

end Assemble

/-! ### An event with the name of a place -/

/-- One arc, for an event named like the second place of every net. -/
def namesake : TransitionSystem :=
  let step : Arc := ⟨"s0", "p1", "s1", none⟩
  { initial := some "s0"
    incidences := [⟨"s0", [step], []⟩, ⟨"s1", [], [step]⟩]
    arcs := [step]
    alphabet := ["p1"] }

theorem namesake_wellFormed : namesake.WellFormed := by
  constructor <;> decide

def namesakeFrame : Frame := ⟨⟨namesake, some "s0", .forward, by decide, _, rfl⟩, rfl, _, rfl⟩

theorem assemble_iff_namesake : (∀ k < 1, placeName k ∉ namesakeFrame.events) ∧
    ∃ a, namesakeFrame.assemble [.trivial _] = .ok a ∧ a.Realizes [.trivial _] := by
  have free : ∀ k < 1, placeName k ∉ namesakeFrame.events := by decide +kernel
  have wf : namesakeFrame.graph.WellFormed := namesake_wellFormed
  exact ⟨free, ((Frame.assemble_iff wf (by decide)).1).2 free⟩

/-- No net with two places has the event for a transition. -/
theorem not_assembled_namesake :
    namesakeFrame.assemble [.trivial _, .trivial _] = .error (.duplicateNode "p1") := by
  rfl

end NetSynthesis
