import NetSynthesis.Assembly
import NetSynthesis.Proofs.ExceptSteps
import NetSynthesis.Proofs.ValidRegions
import NetSynthesis.Proofs.WellFormedNet

/-! The net made of regions. Its arcs are those of the places one after the other, and with a
marking that gives each place the tokens of its region in a state, a transition is enabled if no
region disables its event there, and it then adds the effect of the event to each place. -/
namespace NetSynthesis

variable {n : Nat}

namespace Assembly

def flowsWith (place : String) (entry : Event × Weight) : List Flow :=
  (if entry.2.backward = 0 then [] else [⟨place, entry.1, entry.2.backward⟩]) ++
    (if entry.2.forward = 0 then [] else [⟨entry.1, place, entry.2.forward⟩])

def flowsOf (events : List Event) (p : String × Region n) : List Flow :=
  (events.zip p.2.weights).flatMap (flowsWith p.1)

theorem addFlow_spec {net net' : Net} {source target : String} {weight : Nat}
    (wf : net.WellFormed) (added : addFlow net source target weight = .ok net') :
    net'.WellFormed ∧ net' = { net with
      flows := net.flows ++ if weight = 0 then [] else [⟨source, target, weight⟩] } := by
  rw [addFlow] at added
  split at added
  · rename_i zero
    obtain rfl := Except.ok.inj added
    exact ⟨wf, by simp [zero]⟩
  · rename_i positive
    cases step : net.addFlow source target weight with
    | error e => simp [step, Except.map] at added
    | ok answer =>
      obtain ⟨grown, flow⟩ := answer
      obtain rfl : grown = net' := by simpa [step, Except.map] using added
      refine ⟨wf.addFlow step, ?_⟩
      simpa [positive] using (Net.addFlow_eq_ok step).2.2.2

theorem connect_spec {net net' : Net} {place : String} {entry : Event × Weight}
    (wf : net.WellFormed) (connected : connect place net entry = .ok net') :
    net'.WellFormed ∧ net' = { net with flows := net.flows ++ flowsWith place entry } := by
  obtain ⟨middle, taking, putting⟩ := bind_eq_ok.1 connected
  obtain ⟨wf, rfl⟩ := addFlow_spec wf taking
  obtain ⟨wf, rfl⟩ := addFlow_spec wf putting
  exact ⟨wf, by simp [flowsWith]⟩

theorem foldlM_connect {net net' : Net} {place : String} {entries : List (Event × Weight)}
    (wf : net.WellFormed) (connected : entries.foldlM (connect place) net = .ok net') :
    net'.WellFormed ∧
      net' = { net with flows := net.flows ++ entries.flatMap (flowsWith place) } := by
  induction entries generalizing net with
  | nil =>
    obtain rfl := pure_eq_ok.1 connected
    exact ⟨wf, by simp⟩
  | cons entry entries ih =>
    rw [List.foldlM_cons] at connected
    obtain ⟨middle, first, rest⟩ := bind_eq_ok.1 connected
    obtain ⟨wf, rfl⟩ := connect_spec wf first
    obtain ⟨wf, rfl⟩ := ih wf rest
    exact ⟨wf, by simp⟩

/-- The net with some places more, each with the arcs of its region. -/
def withPlaces (events : List Event) (net : Net) (placed : List (String × Region n)) : Net :=
  { net with
    places := net.places ++ placed.map fun p => ⟨p.1, p.2.initial.toNat⟩
    flows := net.flows ++ placed.flatMap (flowsOf events) }

theorem addRegion_spec {events : List Event} {a b : Assembly n} {r : Region n}
    (wf : a.net.WellFormed) (added : addRegion events a r = .ok b) :
    b.net.WellFormed ∧ 0 ≤ r.initial ∧ ∃ id, b.places = a.places ++ [(id, r)] ∧
      b.net = withPlaces events a.net [(id, r)] := by
  obtain ⟨⟨net, place⟩, placed, rest⟩ := bind_eq_ok.1 added
  obtain ⟨net', connected, same⟩ := bind_eq_ok.1 rest
  obtain rfl := pure_eq_ok.1 same
  obtain ⟨nonneg, tokens, _, grown⟩ := Net.addPlace_eq_ok placed
  obtain ⟨wf, rfl⟩ := foldlM_connect (wf.addPlace placed) connected
  refine ⟨wf, nonneg, place.id, rfl, ?_⟩
  obtain ⟨id, count⟩ := place
  subst grown
  simp_all [withPlaces, flowsOf]

theorem foldlM_addRegion {events : List Event} {regions : List (Region n)} {a b : Assembly n}
    (wf : a.net.WellFormed) (added : regions.foldlM (addRegion events) a = .ok b) :
    b.net.WellFormed ∧ (∀ r ∈ regions, 0 ≤ r.initial) ∧ ∃ placed,
      placed.map (·.2) = regions ∧ b.places = a.places ++ placed ∧
        b.net = withPlaces events a.net placed := by
  induction regions generalizing a with
  | nil =>
    obtain rfl := pure_eq_ok.1 added
    exact ⟨wf, by simp, [], by simp [withPlaces]⟩
  | cons r regions ih =>
    rw [List.foldlM_cons] at added
    obtain ⟨middle, first, rest⟩ := bind_eq_ok.1 added
    obtain ⟨wf, nonneg, id, places, net⟩ := addRegion_spec wf first
    obtain ⟨wf, others, placed, rfl, later, last⟩ := ih wf rest
    refine ⟨wf, List.forall_mem_cons.2 ⟨nonneg, others⟩, (id, r) :: placed, rfl, ?_, ?_⟩
    · rw [later, places, List.append_assoc, List.singleton_append]
    · rw [last, net]; simp [withPlaces]

theorem foldlM_addTransition {events : List Event} {net net' : Net} (wf : net.WellFormed)
    (added : events.foldlM (fun net e => (net.addTransition e).map (·.1)) net = .ok net') :
    net'.WellFormed ∧
      net' = { net with transitions := net.transitions ++ events.map fun e => ⟨e, e⟩ } := by
  induction events generalizing net with
  | nil =>
    obtain rfl := pure_eq_ok.1 added
    exact ⟨wf, by simp⟩
  | cons e events ih =>
    rw [List.foldlM_cons] at added
    obtain ⟨middle, first, rest⟩ := bind_eq_ok.1 added
    cases step : net.addTransition e with
    | error e => simp [step, Except.map] at first
    | ok answer =>
      obtain ⟨grown, transition⟩ := answer
      obtain rfl : grown = middle := by simpa [step, Except.map] using first
      have wf := wf.addTransition step
      obtain ⟨_, rfl⟩ := Net.addTransition_eq_ok step
      obtain ⟨wf, rfl⟩ := ih wf rest
      exact ⟨wf, by simp⟩

end Assembly

open Assembly

/-- A net that has been made is well formed: a transition for each event and the places of the
regions in turn. -/
structure Assembly.MadeOf {f : Frame} (a : Assembly f.size) (regions : List (Region f.size)) :
    Prop where
  wellFormed : a.net.WellFormed
  places : a.places.map (·.2) = regions
  net : a.net = withPlaces f.events
    { name := f.graph.name, transitions := f.events.map fun e => ⟨e, e⟩ } a.places
  nonneg : ∀ r ∈ regions, 0 ≤ r.initial

theorem Frame.madeOf_of_assemble {f : Frame} {regions : List (Region f.size)}
    {a : Assembly f.size} (made : f.assemble regions = .ok a) : a.MadeOf regions := by
  obtain ⟨net, transitions, rest⟩ := bind_eq_ok.1 made
  obtain ⟨wf, rfl⟩ := foldlM_addTransition (.empty f.graph.name) transitions
  obtain ⟨wf, nonneg, placed, regions, places, net⟩ := foldlM_addRegion wf rest
  obtain rfl : a.places = placed := by simpa using places
  exact ⟨wf, regions, net, nonneg⟩

namespace Assembly.MadeOf

variable {f : Frame} {root : State} {a : Assembly f.size} {regions : List (Region f.size)}
  {id : String} {r : Region f.size} {e : Event}

theorem mem_regions (made : a.MadeOf regions) (place : (id, r) ∈ a.places) : r ∈ regions :=
  made.places ▸ List.mem_map_of_mem place

theorem places_eq (made : a.MadeOf regions) :
    a.net.places = a.places.map fun p => ⟨p.1, p.2.initial.toNat⟩ := by
  rw [made.net]; simp [withPlaces]

theorem transitions_eq (made : a.MadeOf regions) :
    a.net.transitions = f.events.map fun e => ⟨e, e⟩ := by
  rw [made.net]; rfl

theorem mem_flows (made : a.MadeOf regions) {flow : Flow} : flow ∈ a.net.flows ↔
    ∃ id r, (id, r) ∈ a.places ∧ ∃ e w, (e, w) ∈ f.events.zip r.weights ∧
      (w.backward ≠ 0 ∧ flow = ⟨id, e, w.backward⟩ ∨
        w.forward ≠ 0 ∧ flow = ⟨e, id, w.forward⟩) := by
  have flows : a.net.flows = a.places.flatMap (flowsOf f.events) := by
    rw [made.net]; simp [withPlaces]
  simp only [flows, flowsOf, flowsWith, List.mem_flatMap, List.mem_append, Prod.exists]
  constructor
  · rintro ⟨id, r, place, e, w, entry, taking | putting⟩
    · split at taking
      · simp at taking
      · rename_i positive
        exact ⟨id, r, place, e, w, entry, .inl ⟨positive, List.mem_singleton.1 taking⟩⟩
    · split at putting
      · simp at putting
      · rename_i positive
        exact ⟨id, r, place, e, w, entry, .inr ⟨positive, List.mem_singleton.1 putting⟩⟩
  · rintro ⟨id, r, place, e, w, entry, ⟨positive, rfl⟩ | ⟨positive, rfl⟩⟩
    · exact ⟨id, r, place, e, w, entry, .inl (by simp [positive])⟩
    · exact ⟨id, r, place, e, w, entry, .inr (by simp [positive])⟩

theorem id_ne (made : a.MadeOf regions) (place : (id, r) ∈ a.places) (known : e ∈ f.events) :
    id ≠ e := by
  rintro rfl
  have disjoint := (List.nodup_append'.1 made.wellFormed.nodes_nodup).2.2
  refine disjoint (a := id) ?_ ?_
  · rw [made.places_eq, List.map_map]; exact List.mem_map.2 ⟨(id, r), place, rfl⟩
  · rw [made.transitions_eq, List.map_map]; simpa using known

theorem place_unique (made : a.MadeOf regions) {q : Region f.size} (place : (id, r) ∈ a.places)
    (other : (id, q) ∈ a.places) : r = q := by
  have nodup := (List.nodup_append'.1 made.wellFormed.nodes_nodup).1
  rw [made.places_eq, List.map_map] at nodup
  exact (Prod.mk.inj (List.inj_on_of_nodup_map nodup place other rfl)).2

/-! ### Weights and markings -/

section Firing

variable (made : a.MadeOf regions)

include made

theorem initialMarking_eq : a.net.initialMarking = regions.map (·.initial) := by
  rw [Net.initialMarking, made.places_eq, ← made.places, List.map_map, List.map_map]
  apply List.map_congr_left
  intro p place
  exact Int.toNat_of_nonneg (made.nonneg _ (made.mem_regions place))

section Weights

variable (wf : f.graph.WellFormed) (known : e ∈ f.events)

include wf known

theorem weight_backward (place : (id, r) ∈ a.places) :
    a.net.weight id e = (f.weightOf r e).backward := by
  by_cases zero : (f.weightOf r e).backward = 0
  · rw [zero]
    refine Net.weight_eq_zero fun flow member ⟨source, target⟩ => ?_
    obtain ⟨id', q, other, e', w, entry, ⟨positive, rfl⟩ | ⟨_, rfl⟩⟩ := made.mem_flows.1 member
    · obtain rfl : id' = id := source
      obtain rfl : e' = e := target
      obtain rfl := made.place_unique place other
      exact positive (((Frame.mem_zip_weights wf).1 entry).2 ▸ zero)
    · exact made.id_ne place ((Frame.mem_zip_weights wf).1 entry).1 source.symm
  · exact made.wellFormed.weight_eq (made.mem_flows.2
      ⟨id, r, place, e, _, (Frame.mem_zip_weights wf).2 ⟨known, rfl⟩, .inl ⟨zero, rfl⟩⟩)

theorem weight_forward (place : (id, r) ∈ a.places) :
    a.net.weight e id = (f.weightOf r e).forward := by
  by_cases zero : (f.weightOf r e).forward = 0
  · rw [zero]
    refine Net.weight_eq_zero fun flow member ⟨source, target⟩ => ?_
    obtain ⟨id', q, other, e', w, entry, ⟨_, rfl⟩ | ⟨positive, rfl⟩⟩ := made.mem_flows.1 member
    · exact made.id_ne other known source
    · obtain rfl : id' = id := target
      obtain rfl : e' = e := source
      obtain rfl := made.place_unique place other
      exact positive (((Frame.mem_zip_weights wf).1 entry).2 ▸ zero)
  · exact made.wellFormed.weight_eq (made.mem_flows.2
      ⟨id, r, place, e, _, (Frame.mem_zip_weights wf).2 ⟨known, rfl⟩, .inr ⟨zero, rfl⟩⟩)

end Weights

/-- Firing where the places have the tokens that their regions have in a state. -/
theorem fire_iff (rooted : f.Rooted root) (known : e ∈ f.events) (s : State) {k : Marking} :
    a.net.fire (regions.map (f.tokens · s)) e = .ok k ↔
      (∀ r ∈ regions, ((f.weightOf r e).backward : Int) ≤ f.tokens r s) ∧
        (regions.map fun r => f.tokens r s + (f.weightOf r e).effect) = k := by
  have after : (a.places.map fun p => f.tokens p.2 s - a.net.weight p.1 e + a.net.weight e p.1) =
      a.places.map fun p => f.tokens p.2 s + (f.weightOf p.2 e).effect := by
    apply List.map_congr_left
    intro p place
    rw [made.weight_backward rooted.wellFormed known place,
      made.weight_forward rooted.wellFormed known place, Weight.effect]
    omega
  simp only [← made.places, List.map_map, Function.comp_def, List.forall_mem_map]
  rw [Net.fire_map_iff made.places_eq, after]
  refine and_congr_left fun _ => forall₂_congr fun p place => ?_
  rw [made.weight_backward rooted.wellFormed known place]

end Firing

end Assembly.MadeOf

end NetSynthesis
