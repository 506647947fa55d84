import NetSynthesis.Proofs.ExceptSteps
import NetSynthesis.Proofs.FreshNames
import NetSynthesis.Proofs.SearchedLists
import NetSynthesis.Proofs.UncoveredWays
import NetSynthesis.Proofs.WellFormedSystem

/-! Exploration of the reachable markings. A graph that is returned has a state for each of them and
an arc for each way to fire a transition. The exploration fails only if a marking covers one on its
way, if there are more markings than the limit allows, or if two transitions with one label have the
same effect, which makes an arc a second time. -/
namespace NetSynthesis.MarkingGraph

open LabelledGraph Net

variable {net : Net} {limit : Int} {g g' : MarkingGraph} {c : MarkedState} {t : Transition}
  {m : Marking} {e : Event} {ps : List Transition}

theorem edge_iff (reached : net.behaviour.Reaches m) {k : Marking} :
    net.behaviour.Edge m e k ↔ ∃ t ∈ net.transitions, t.label = e ∧
      net.enables m t.id = true ∧ net.after m t.id = k := by
  obtain ⟨w, path⟩ := reached
  have marking : net.IsMarking m := (IsMarking.initial net).path path
  constructor
  · rintro ⟨t, member, label, fired⟩
    exact ⟨t, member, label, (fire_eq_ok marking.length.ge).1 fired⟩
  · rintro ⟨t, member, label, fires⟩
    exact ⟨t, member, label, (fire_eq_ok marking.length.ge).2 fires⟩

/-! ### What the exploration keeps -/

def HasArc (g : MarkingGraph) (c : MarkedState) (e : Event) (m : Marking) : Prop :=
  ∃ d ∈ g.marked, d.marking = m ∧
    ∃ a ∈ g.system.arcs, a.source = c.state ∧ a.label = e ∧ a.target = d.state

/-- States are marked with different markings, each with an uncovered way to it through markings of
other states, and arcs are transitions that fire. -/
structure Explored (net : Net) (limit : Int) (g : MarkingGraph) : Prop where
  wellFormed : g.system.WellFormed
  states : g.system.states = g.marked.map (·.state)
  markings_nodup : (g.marked.map (·.marking)).Nodup
  start : ∃ c ∈ g.marked, g.system.initial = some c.state ∧ c.marking = net.initialMarking
  uncovered : ∀ c ∈ g.marked, Uncovered net (c.marking :: c.way)
  ways_marked : ∀ c ∈ g.marked, c.way ⊆ g.marked.map (·.marking)
  edges : ∀ a ∈ g.system.arcs, ∃ c ∈ g.marked, ∃ d ∈ g.marked, a.source = c.state ∧
    a.target = d.state ∧ net.behaviour.Edge c.marking a.label d.marking
  size : (g.marked.length : Int) ≤ max 1 limit

/-- States and arcs are only added. -/
structure Grows (g g' : MarkingGraph) : Prop where
  marked : g.marked <+: g'.marked
  arcs : g.system.arcs <+: g'.system.arcs

theorem Grows.refl (g : MarkingGraph) : Grows g g := ⟨List.prefix_rfl, List.prefix_rfl⟩

theorem Grows.trans {h : MarkingGraph} (first : Grows g g') (second : Grows g' h) : Grows g h :=
  ⟨first.marked.trans second.marked, first.arcs.trans second.arcs⟩

theorem Grows.getElem? {i : Nat} (grows : Grows g g') (found : g.marked[i]? = some c) :
    g'.marked[i]? = some c :=
  getElem?_of_prefix grows.marked found

theorem HasArc.mono (arc : HasArc g c e m) (grows : Grows g g') : HasArc g' c e m := by
  obtain ⟨d, member, marking, a, inside, ends⟩ := arc
  exact ⟨d, grows.marked.subset member, marking, a, grows.arcs.subset inside, ends⟩

/-- The arcs that leave a state are transitions of a list that fire there. -/
def FiredBy (net : Net) (ps : List Transition) (c : MarkedState) (g : MarkingGraph) : Prop :=
  ∀ a ∈ g.system.arcs, a.source = c.state → ∃ t ∈ ps, t.label = a.label ∧
    net.enables c.marking t.id = true ∧
      ∃ d ∈ g.marked, d.state = a.target ∧ d.marking = net.after c.marking t.id

namespace Explored

variable (explored : Explored net limit g)

include explored

theorem reached (c : MarkedState) (member : c ∈ g.marked) : net.behaviour.Reaches c.marking :=
  (explored.uncovered c member).reaches _ List.mem_cons_self

theorem states_nodup : (g.marked.map (·.state)).Nodup :=
  explored.states ▸ explored.wellFormed.states_nodup

theorem eq_of_state {d : MarkedState} (hc : c ∈ g.marked) (hd : d ∈ g.marked)
    (same : c.state = d.state) : c = d :=
  List.inj_on_of_nodup_map explored.states_nodup hc hd same

theorem eq_of_marking {d : MarkedState} (hc : c ∈ g.marked) (hd : d ∈ g.marked)
    (same : c.marking = d.marking) : c = d :=
  List.inj_on_of_nodup_map explored.markings_nodup hc hd same

theorem mem_states (member : c ∈ g.marked) : c.state ∈ g.system.states :=
  explored.states ▸ List.mem_map_of_mem member

theorem edge (member : c ∈ g.marked) (inside : t ∈ net.transitions)
    (enabled : net.enables c.marking t.id = true) :
    net.behaviour.Edge c.marking t.label (net.after c.marking t.id) :=
  (edge_iff (explored.reached c member)).2 ⟨t, inside, rfl, enabled, rfl⟩

theorem addArc {d : MarkedState} {system : TransitionSystem} (hc : c ∈ g.marked)
    (hd : d ∈ g.marked) (fires : net.behaviour.Edge c.marking t.label d.marking)
    (added : g.system.addArc ⟨c.state, t.label, d.state, none⟩ = .ok system) :
    Explored net limit { g with system } ∧ Grows g { g with system } ∧
      HasArc { g with system } c t.label d.marking := by
  obtain ⟨states, arcs, _, initial⟩ := TransitionSystem.addArc_spec added
  refine ⟨⟨explored.wellFormed.addArc added, states.trans explored.states,
    explored.markings_nodup, ?_, explored.uncovered, explored.ways_marked, ?_, explored.size⟩,
    ⟨List.prefix_rfl, arcs ▸ List.prefix_append _ _⟩, ?_⟩
  · obtain ⟨s, member, first, marking⟩ := explored.start
    exact ⟨s, member, initial.trans first, marking⟩
  · intro a member
    rw [arcs] at member
    rcases List.mem_append.1 member with old | new
    · exact explored.edges a old
    · obtain rfl := List.mem_singleton.1 new
      exact ⟨c, hc, d, hd, rfl, rfl, fires⟩
  · exact ⟨d, hd, rfl, ⟨c.state, t.label, d.state, none⟩, by simp [arcs], rfl, rfl, rfl⟩

theorem addState {system : TransitionSystem} {s : State} (hc : c ∈ g.marked)
    (fires : net.behaviour.Edge c.marking e m) (new : m ∉ g.marked.map (·.marking))
    (low : covered? c m = none) (room : (g.system.states.length : Int) < limit)
    (added : g.system.addState = .ok (system, s)) :
    Explored net limit ⟨system, g.marked ++ [⟨s, m, c.marking :: c.way⟩]⟩ ∧
      Grows g ⟨system, g.marked ++ [⟨s, m, c.marking :: c.way⟩]⟩ := by
  obtain ⟨fresh, states, arcs, _, initial, _⟩ := TransitionSystem.addState_spec added
  have behind : c.marking :: c.way ⊆ g.marked.map (·.marking) :=
    List.cons_subset.2 ⟨List.mem_map_of_mem hc, explored.ways_marked c hc⟩
  have found : Uncovered net (m :: c.marking :: c.way) := by
    refine .step (explored.uncovered c hc) fires fun old earlier => ⟨?_, ?_⟩
    · rintro rfl
      exact new (behind earlier)
    · simpa using List.find?_eq_none.1 low old earlier
  have grows : Grows g ⟨system, g.marked ++ [⟨s, m, c.marking :: c.way⟩]⟩ :=
    ⟨List.prefix_append _ _, by rw [arcs]⟩
  have more : g.marked.map (·.marking) ⊆
      (g.marked ++ [(⟨s, m, c.marking :: c.way⟩ : MarkedState)]).map (·.marking) :=
    List.map_subset _ grows.marked.subset
  refine ⟨⟨explored.wellFormed.addState added, ?_, ?_, ?_, ?_, ?_, ?_, ?_⟩, grows⟩
  · simp [states, explored.states]
  · rw [List.map_append]
    exact List.nodup_append'.2 ⟨explored.markings_nodup, by simp, by simpa using new⟩
  · obtain ⟨d, member, first, marking⟩ := explored.start
    exact ⟨d, grows.marked.subset member, by rw [initial, first]; rfl, marking⟩
  · intro d member
    rcases List.mem_append.1 member with old | last
    · exact explored.uncovered d old
    · obtain rfl := List.mem_singleton.1 last
      exact found
  · intro d member
    rcases List.mem_append.1 member with old | last
    · exact List.Subset.trans (explored.ways_marked d old) more
    · obtain rfl := List.mem_singleton.1 last
      exact List.Subset.trans behind more
  · intro a member
    rw [arcs] at member
    obtain ⟨d, hd, k, hk, ends⟩ := explored.edges a member
    exact ⟨d, grows.marked.subset hd, k, grows.marked.subset hk, ends⟩
  · have size := congrArg List.length explored.states
    simp only [List.length_map] at size
    simp only [List.length_append, List.length_singleton]
    omega

end Explored

/-! ### One transition -/

/-- What firing a transition does to a graph: nothing where it is disabled, else it adds an arc to
the marking after it, which may be new. -/
theorem follow_cases (answer : follow net limit c g t = .ok g') :
    (net.enables c.marking t.id = false ∧ g' = g) ∨ (net.enables c.marking t.id = true ∧
      ((∃ d ∈ g.marked, d.marking = net.after c.marking t.id ∧ ∃ system,
        g.system.addArc ⟨c.state, t.label, d.state, none⟩ = .ok system ∧ g' = { g with system }) ∨
      (net.after c.marking t.id ∉ g.marked.map (·.marking) ∧
        covered? c (net.after c.marking t.id) = none ∧
        (g.system.states.length : Int) < limit ∧ ∃ grown s system,
          g.system.addState = .ok (grown, s) ∧
          grown.addArc ⟨c.state, t.label, s, none⟩ = .ok system ∧
          g' = ⟨system, g.marked ++ [⟨s, net.after c.marking t.id, c.marking :: c.way⟩]⟩))) := by
  rw [follow] at answer
  cases enabled : net.enables c.marking t.id with
  | false =>
    simp only [enabled, Bool.not_false, if_true] at answer
    exact .inl ⟨rfl, (Except.ok.inj answer).symm⟩
  | true =>
    simp only [enabled, Bool.not_true, Bool.false_eq_true, if_false] at answer
    refine .inr ⟨rfl, ?_⟩
    cases known : g.marked.find? (·.marking == net.after c.marking t.id) with
    | some d =>
      simp only [known] at answer
      obtain ⟨system, added, same⟩ := bind_eq_ok.1 answer
      have marking : d.marking = net.after c.marking t.id := by
        simpa using List.find?_some known
      exact .inl ⟨d, List.mem_of_find?_eq_some known, marking, system, added,
        (pure_eq_ok.1 same).symm⟩
    | none =>
      simp only [known] at answer
      have new : net.after c.marking t.id ∉ g.marked.map (·.marking) := by
        simpa [List.find?_eq_none] using known
      cases above : covered? c (net.after c.marking t.id) with
      | some old => simp [above] at answer
      | none =>
        simp only [above] at answer
        split at answer
        · simp at answer
        · rename_i room
          obtain ⟨⟨grown, s⟩, state, rest⟩ := bind_eq_ok.1 answer
          obtain ⟨system, arc, same⟩ := bind_eq_ok.1 rest
          exact .inr ⟨new, rfl, Int.not_le.1 room, grown, s, system, state, arc,
            (pure_eq_ok.1 same).symm⟩

theorem follow_error_cases {e : Error} (answer : follow net limit c g t = .error e) :
    net.enables c.marking t.id = true ∧
      ((∃ d ∈ g.marked, d.marking = net.after c.marking t.id ∧
        g.system.addArc ⟨c.state, t.label, d.state, none⟩ = .error e) ∨
      (net.after c.marking t.id ∉ g.marked.map (·.marking) ∧
        ((∃ old, covered? c (net.after c.marking t.id) = some old ∧
            e = .unbounded (net.after c.marking t.id) old) ∨
          (limit ≤ (g.system.states.length : Int) ∧ e = .tooManyMarkings limit) ∨
          ∃ grown s, g.system.addState = .ok (grown, s) ∧
            grown.addArc ⟨c.state, t.label, s, none⟩ = .error e))) := by
  rw [follow] at answer
  cases enabled : net.enables c.marking t.id with
  | false => simp [enabled] at answer
  | true =>
    simp only [enabled, Bool.not_true, Bool.false_eq_true, if_false] at answer
    refine ⟨rfl, ?_⟩
    cases known : g.marked.find? (·.marking == net.after c.marking t.id) with
    | some d =>
      simp only [known] at answer
      have marking : d.marking = net.after c.marking t.id := by
        simpa using List.find?_some known
      rcases bind_eq_error.1 answer with failed | ⟨_, _, same⟩
      · exact .inl ⟨d, List.mem_of_find?_eq_some known, marking, failed⟩
      · simp [pure, Except.pure] at same
    | none =>
      simp only [known] at answer
      have new : net.after c.marking t.id ∉ g.marked.map (·.marking) := by
        simpa [List.find?_eq_none] using known
      refine .inr ⟨new, ?_⟩
      cases above : covered? c (net.after c.marking t.id) with
      | some old =>
        simp only [above] at answer
        exact .inl ⟨old, rfl, (Except.error.inj answer).symm⟩
      | none =>
        simp only [above] at answer
        split at answer
        · rename_i full
          exact .inr (.inl ⟨full, (Except.error.inj answer).symm⟩)
        · obtain ⟨grown, s, state⟩ := g.system.exists_addState
          simp only [state, bind, Except.bind] at answer
          rcases bind_eq_error.1 answer with failed | ⟨_, _, same⟩
          · exact .inr (.inr ⟨grown, s, state, failed⟩)
          · simp [pure, Except.pure] at same

theorem Explored.follow (explored : Explored net limit g) (hc : c ∈ g.marked)
    (ht : t ∈ net.transitions) (answer : follow net limit c g t = .ok g') :
    Explored net limit g' ∧ Grows g g' ∧ (net.enables c.marking t.id = true →
      HasArc g' c t.label (net.after c.marking t.id)) := by
  obtain ⟨disabled, rfl⟩ | ⟨enabled, ⟨d, hd, marking, system, added, rfl⟩ |
    ⟨new, low, room, grown, s, system, state, arc, rfl⟩⟩ := follow_cases answer
  · exact ⟨explored, .refl _, by simp [disabled]⟩
  · have fires := explored.edge hc ht enabled
    rw [← marking] at fires ⊢
    obtain ⟨kept, grows, joined⟩ := explored.addArc hc hd fires added
    exact ⟨kept, grows, fun _ => joined⟩
  · have fires := explored.edge hc ht enabled
    obtain ⟨kept, grows⟩ := explored.addState hc fires new low room state
    obtain ⟨kept, grows', joined⟩ := kept.addArc (grows.marked.subset hc)
      (d := ⟨s, net.after c.marking t.id, c.marking :: c.way⟩) (by simp) fires arc
    exact ⟨kept, grows.trans grows', fun _ => joined⟩

/-- The arcs there are afterwards: those before, and one for the transition. -/
theorem arcs_of_follow (answer : follow net limit c g t = .ok g') :
    ∀ a ∈ g'.system.arcs, a ∈ g.system.arcs ∨ (a.source = c.state ∧ t.label = a.label ∧
      net.enables c.marking t.id = true ∧
        ∃ d ∈ g'.marked, d.state = a.target ∧ d.marking = net.after c.marking t.id) := by
  intro a member
  obtain ⟨_, rfl⟩ | ⟨enabled, ⟨d, hd, marking, system, added, rfl⟩ |
    ⟨_, _, _, grown, s, system, state, arc, rfl⟩⟩ := follow_cases answer
  · exact .inl member
  · have arcs := (TransitionSystem.addArc_spec added).2.1
    simp only [arcs, List.mem_append, List.mem_singleton] at member
    rcases member with old | rfl
    · exact .inl old
    · exact .inr ⟨rfl, rfl, enabled, d, hd, rfl, marking⟩
  · have arcs := (TransitionSystem.addArc_spec arc).2.1
    simp only [arcs, (TransitionSystem.addState_spec state).2.2.1, List.mem_append,
      List.mem_singleton] at member
    rcases member with old | rfl
    · exact .inl old
    · exact .inr ⟨rfl, rfl, enabled, ⟨s, net.after c.marking t.id, c.marking :: c.way⟩,
        by simp, rfl, rfl⟩

theorem FiredBy.follow (fired : FiredBy net ps c g) (grows : Grows g g')
    (answer : follow net limit c g t = .ok g') : FiredBy net (ps ++ [t]) c g' := by
  intro a member source
  rcases arcs_of_follow answer a member with old | ⟨_, label, enabled, leads⟩
  · obtain ⟨u, before, label, enabled, d, hd, leads⟩ := fired a old source
    exact ⟨u, List.mem_append_left _ before, label, enabled, d, grows.marked.subset hd, leads⟩
  · exact ⟨t, by simp, label, enabled, leads⟩

def LeaveFirst (k : Nat) (g : MarkingGraph) : Prop :=
  ∀ a ∈ g.system.arcs, ∃ i < k, ∃ d, g.marked[i]? = some d ∧ a.source = d.state

theorem LeaveFirst.mono {k n : Nat} (leave : LeaveFirst k g) (le : k ≤ n) : LeaveFirst n g := by
  intro a member
  obtain ⟨i, before, leaves⟩ := leave a member
  exact ⟨i, before.trans_le le, leaves⟩

theorem LeaveFirst.firedBy {k : Nat} (leave : LeaveFirst k g) (explored : Explored net limit g)
    (current : g.marked[k]? = some c) : FiredBy net [] c g := by
  intro a member source
  obtain ⟨i, before, d, found, other⟩ := leave a member
  have at_i : (g.marked.map (·.state))[i]? = some c.state := by
    simp [List.getElem?_map, found, ← other, source]
  have at_k : (g.marked.map (·.state))[k]? = some c.state := by
    simp [List.getElem?_map, current]
  have inside : i < (g.marked.map (·.state)).length := (List.getElem?_eq_some_iff.1 at_i).1
  have same := explored.states_nodup.getElem_inj_iff.1
    ((List.getElem_eq_iff inside).2 at_i |>.trans
      ((List.getElem_eq_iff (List.getElem?_eq_some_iff.1 at_k).1).2 at_k).symm)
  omega

theorem LeaveFirst.follow {k : Nat} (leave : LeaveFirst (k + 1) g)
    (current : g.marked[k]? = some c) (grows : Grows g g')
    (answer : follow net limit c g t = .ok g') : LeaveFirst (k + 1) g' := by
  intro a member
  rcases arcs_of_follow answer a member with old | ⟨source, _⟩
  · obtain ⟨i, before, d, found, source⟩ := leave a old
    exact ⟨i, before, d, grows.getElem? found, source⟩
  · exact ⟨k, by omega, c, grows.getElem? current, source⟩

/-! ### All transitions at a state -/

/-- Firing all transitions of a list at a state, after those of another list. -/
theorem Explored.follow_all {k : Nat} {ts : List Transition} (explored : Explored net limit g)
    (current : g.marked[k]? = some c) (leave : LeaveFirst (k + 1) g)
    (inside : ts ⊆ net.transitions)
    (answer : ts.foldlM (MarkingGraph.follow net limit c) g = .ok g') :
    (Explored net limit g' ∧ LeaveFirst (k + 1) g') ∧ Grows g g' ∧
      ∀ t ∈ ts, net.enables c.marking t.id = true →
        HasArc g' c t.label (net.after c.marking t.id) := by
  -- the state stays where it is in the list, so that its arcs are among those of the first states
  let kept (g : MarkingGraph) : Prop :=
    Explored net limit g ∧ LeaveFirst (k + 1) g ∧ g.marked[k]? = some c
  have each : ∀ t ∈ ts, ∀ g h, kept g → MarkingGraph.follow net limit c g t = .ok h →
      kept h ∧ Grows g h ∧ (net.enables c.marking t.id = true →
        HasArc h c t.label (net.after c.marking t.id)) := by
    rintro t member g h ⟨explored, leave, current⟩ step
    obtain ⟨kept, grows, arc⟩ :=
      explored.follow (List.mem_of_getElem? current) (inside member) step
    exact ⟨⟨kept, leave.follow current grows step, grows.getElem? current⟩, grows, arc⟩
  have persist (t : Transition) (g h : MarkingGraph) (grows : Grows g h)
      (arc : net.enables c.marking t.id = true →
        HasArc g c t.label (net.after c.marking t.id))
      (enabled : net.enables c.marking t.id = true) :
      HasArc h c t.label (net.after c.marking t.id) := (arc enabled).mono grows
  obtain ⟨⟨explored, leave, _⟩, grows, arcs⟩ := foldlM_ok Grows.refl
    (fun _ _ _ => Grows.trans) persist each ⟨explored, leave, current⟩ answer
  exact ⟨⟨explored, leave⟩, grows, arcs⟩

theorem twins_iff (reached : net.behaviour.Reaches m) {u : Transition} :
    net.Twins m t u ↔ t.label = u.label ∧ net.enables m t.id = true ∧
      net.enables m u.id = true ∧ net.after m t.id = net.after m u.id := by
  obtain ⟨w, path⟩ := reached
  have marking : net.IsMarking m := (IsMarking.initial net).path path
  refine and_congr_right fun _ => ?_
  simp only [fire_eq_ok marking.length.ge]
  exact ⟨fun ⟨k, ⟨enabled, after⟩, enabled', after'⟩ =>
      ⟨enabled, enabled', after.trans after'.symm⟩,
    fun ⟨enabled, enabled', same⟩ => ⟨_, ⟨enabled, same⟩, enabled', rfl⟩⟩

theorem Explored.ne_of_follow (explored : Explored net limit g)
    (arc : HasArc g c t.label m) (answer : MarkingGraph.follow net limit c g t = .ok g')
    (enabled : net.enables c.marking t.id = true) : net.after c.marking t.id ≠ m := by
  rintro rfl
  obtain ⟨d, hd, marking, a, member, source, label, target⟩ := arc
  obtain ⟨disabled, _⟩ | ⟨_, ⟨k, hk, marking', system, added, _⟩ | ⟨new, _⟩⟩ := follow_cases answer
  · simp [disabled] at enabled
  · obtain rfl := explored.eq_of_marking hk hd (marking'.trans marking.symm)
    exact TransitionSystem.addArc_fresh explored.wellFormed added member ⟨source, label, target⟩
  · exact new (marking ▸ List.mem_map_of_mem hd)

theorem Explored.twinless_of_follow_all {ts : List Transition} (explored : Explored net limit g)
    (hc : c ∈ g.marked) (inside : ts ⊆ net.transitions)
    (answer : ts.foldlM (MarkingGraph.follow net limit c) g = .ok g') :
    ts.Pairwise fun t u => ¬ net.Twins c.marking t u := by
  induction ts generalizing g with
  | nil => exact .nil
  | cons t ts ih =>
    obtain ⟨first, others⟩ := List.cons_subset.1 inside
    rw [List.foldlM_cons] at answer
    obtain ⟨h, step, rest⟩ := bind_eq_ok.1 answer
    obtain ⟨kept, grows, arc⟩ := explored.follow hc first step
    have marked := grows.marked.subset hc
    refine .cons (fun u member twins => ?_) (ih kept marked others rest)
    obtain ⟨label, enabled, enabled', same⟩ := (twins_iff (explored.reached c hc)).1 twins
    have each : ∀ u ∈ ts, ∀ g g', (Explored net limit g ∧ c ∈ g.marked ∧
        HasArc g c t.label (net.after c.marking t.id)) →
        MarkingGraph.follow net limit c g u = .ok g' →
        (Explored net limit g' ∧ c ∈ g'.marked ∧
          HasArc g' c t.label (net.after c.marking t.id)) ∧ True ∧
        (u.label = t.label → net.enables c.marking u.id = true →
          net.after c.marking u.id ≠ net.after c.marking t.id) := by
      rintro u member g g' ⟨explored, hc, arc⟩ step
      obtain ⟨kept, grows, _⟩ := explored.follow hc (others member) step
      exact ⟨⟨kept, grows.marked.subset hc, arc.mono grows⟩, trivial,
        fun label => explored.ne_of_follow (label ▸ arc) step⟩
    obtain ⟨_, _, apart⟩ := foldlM_ok (R := fun _ _ => True) (fun _ => trivial)
      (fun _ _ _ _ _ => trivial) (fun _ _ _ _ apart => apart) each
      ⟨kept, marked, arc enabled⟩ rest
    exact apart u member label.symm enabled' same.symm

/-- A step of the exploration that fails: the transitions of a list have been fired at a state, and
the next one cannot. -/
structure Fails (net : Net) (limit : Int) (e : Error) (g : MarkingGraph) (c : MarkedState)
    (ps : List Transition) (t : Transition) : Prop where
  explored : Explored net limit g
  marked : c ∈ g.marked
  next : ∃ rest, net.transitions = ps ++ t :: rest
  fired : FiredBy net ps c g
  answer : follow net limit c g t = .error e

theorem Explored.follow_all_error {ts : List Transition} {e : Error}
    (explored : Explored net limit g) (hc : c ∈ g.marked) (fired : FiredBy net ps c g)
    (all : net.transitions = ps ++ ts)
    (answer : ts.foldlM (MarkingGraph.follow net limit c) g = .error e) :
    ∃ h ps t, Fails net limit e h c ps t := by
  induction ts generalizing ps g with
  | nil => simp [pure, Except.pure] at answer
  | cons t ts ih =>
    rw [List.foldlM_cons] at answer
    rcases bind_eq_error.1 answer with failed | ⟨h, step, rest⟩
    · exact ⟨g, ps, t, explored, hc, ⟨ts, all⟩, fired, failed⟩
    · have inside : t ∈ net.transitions := by simp [all]
      obtain ⟨explored, grows, _⟩ := explored.follow hc inside step
      exact ih explored (grows.marked.subset hc) (fired.follow grows step) (by simp [all]) rest

/-! ### The exploration -/

/-- The transitions that are enabled at a state all have their arcs, each another one. -/
structure Closed (net : Net) (g : MarkingGraph) (c : MarkedState) : Prop where
  arcs : ∀ t ∈ net.transitions, net.enables c.marking t.id = true →
    HasArc g c t.label (net.after c.marking t.id)
  twinless : net.transitions.Pairwise fun t u => ¬ net.Twins c.marking t u

theorem Closed.mono (closed : Closed net g c) (grows : Grows g g') : Closed net g' c :=
  ⟨fun t member enabled => (closed.arcs t member enabled).mono grows, closed.twinless⟩

theorem Explored.explore {n k : Nat} (explored : Explored net limit g) (leave : LeaveFirst k g)
    (closed : ∀ i < k, ∀ c, g.marked[i]? = some c → Closed net g c)
    (answer : explore net limit n k g = .ok g') : Explored net limit g' ∧
      ∀ i < k + n, ∀ c, g'.marked[i]? = some c → Closed net g' c := by
  induction n generalizing k g with
  | zero =>
    obtain rfl := Except.ok.inj answer
    exact ⟨explored, closed⟩
  | succ n ih =>
    rw [MarkingGraph.explore] at answer
    cases current : g.marked[k]? with
    | none =>
      simp only [current] at answer
      obtain rfl := Except.ok.inj answer
      refine ⟨explored, fun i _ c found => closed i ?_ c found⟩
      have inside := (List.getElem?_eq_some_iff.1 found).1
      have end_before := List.getElem?_eq_none_iff.1 current
      omega
    | some c =>
      simp only [current] at answer
      obtain ⟨h, fired, rest⟩ := bind_eq_ok.1 answer
      obtain ⟨⟨explored', leave'⟩, grows, arcs⟩ := explored.follow_all current
        (leave.mono (Nat.le_succ k)) (List.Subset.refl _) fired
      have done : ∀ i < k + 1, ∀ d, h.marked[i]? = some d → Closed net h d := by
        have idle : g.marked[k]? = none → h.marked = g.marked := by simp [current]
        refine settled_succ grows.marked idle ?_ ?_
        · exact fun i bound d found => (closed i bound d found).mono grows
        · intro d found
          obtain rfl := Option.some.inj (current.symm.trans found)
          exact ⟨arcs, explored.twinless_of_follow_all (List.mem_of_getElem? current)
            (List.Subset.refl _) fired⟩
      obtain ⟨explored, closed⟩ := ih explored' leave' done rest
      exact ⟨explored, fun i bound => closed i (by omega)⟩

theorem Explored.explore_error {n k : Nat} {e : Error} (explored : Explored net limit g)
    (leave : LeaveFirst k g) (answer : MarkingGraph.explore net limit n k g = .error e) :
    ∃ h c ps t, Fails net limit e h c ps t := by
  induction n generalizing k g with
  | zero => simp [MarkingGraph.explore] at answer
  | succ n ih =>
    rw [MarkingGraph.explore] at answer
    cases current : g.marked[k]? with
    | none => simp [current] at answer
    | some c =>
      simp only [current] at answer
      rcases bind_eq_error.1 answer with failed | ⟨h, fired, rest⟩
      · obtain ⟨h, ps, t, fails⟩ := explored.follow_all_error (List.mem_of_getElem? current)
          (leave.firedBy explored current) rfl failed
        exact ⟨h, c, ps, t, fails⟩
      · obtain ⟨⟨explored, leave⟩, _⟩ := explored.follow_all current
          (leave.mono (Nat.le_succ k)) (List.Subset.refl _) fired
        exact ih explored leave rest

/-- Why a step fails: its arc is there already, or the marking after it is new and either covers one
on its way or finds no room. -/
theorem Fails.cases {e : Error} (fails : Fails net limit e g c ps t) :
    net.enables c.marking t.id = true ∧
      ((∃ u ∈ ps, u.label = t.label ∧ net.enables c.marking u.id = true ∧
          net.after c.marking u.id = net.after c.marking t.id ∧
          ∃ d ∈ g.marked, e = .duplicateArc c.state t.label d.state) ∨
        (net.after c.marking t.id ∉ g.marked.map (·.marking) ∧
          ((∃ old ∈ c.marking :: c.way, covers (net.after c.marking t.id) old = true ∧
              e = .unbounded (net.after c.marking t.id) old) ∨
            (limit ≤ (g.marked.length : Int) ∧ e = .tooManyMarkings limit)))) := by
  obtain ⟨explored, hc, _, fired, answer⟩ := fails
  obtain ⟨enabled, ⟨d, hd, marking, failed⟩ | ⟨new, reason⟩⟩ := follow_error_cases answer
  · obtain ⟨rfl, a, member, source, label, target⟩ := TransitionSystem.addArc_eq_error
      explored.wellFormed (explored.mem_states hc) (explored.mem_states hd) failed
    obtain ⟨u, before, label', enabled', k, hk, state, after⟩ := fired a member source
    obtain rfl := explored.eq_of_state hk hd (state.trans target)
    exact ⟨enabled, .inl ⟨u, before, label'.trans label, enabled', after.symm.trans marking, k, hd,
      rfl⟩⟩
  · refine ⟨enabled, .inr ⟨new, ?_⟩⟩
    rcases reason with ⟨old, above, rfl⟩ | ⟨full, rfl⟩ | ⟨grown, s, state, failed⟩
    · exact .inl ⟨old, List.mem_of_find?_eq_some above, List.find?_some above, rfl⟩
    · have size : g.system.states.length = g.marked.length := by simp [explored.states]
      exact .inr ⟨size ▸ full, rfl⟩
    · -- No arc leads to a fresh state yet.
      obtain ⟨fresh, states, arcs, _⟩ := TransitionSystem.addState_spec state
      obtain ⟨_, b, member, _, _, target⟩ := TransitionSystem.addArc_eq_error
        (explored.wellFormed.addState state) (by simp [states, explored.mem_states hc])
        (by simp [states]) failed
      rw [arcs] at member
      have known := (explored.wellFormed.arc_ends b member).2
      rw [target] at known
      exact absurd known fresh

/-! ### Whole graphs -/

theorem exists_start (net : Net) (limit : Int) : ∃ system s,
    ({ name := s!"Reachability graph of {net.name}" } : TransitionSystem).addState =
      .ok (system, s) ∧
    Explored net limit ⟨system, [⟨s, net.initialMarking, []⟩]⟩ ∧
    LeaveFirst 0 ⟨system, [⟨s, net.initialMarking, []⟩]⟩ := by
  obtain ⟨system, s, added⟩ := TransitionSystem.exists_addState
    { name := s!"Reachability graph of {net.name}" }
  obtain ⟨_, states, arcs, _, initial, _⟩ := TransitionSystem.addState_spec added
  refine ⟨system, s, added, ⟨?_, ?_, by simp, ?_, ?_, by simp, by simp [arcs], by simp⟩,
    by simp [LeaveFirst, arcs]⟩
  · exact (TransitionSystem.WellFormed.empty _).addState added
  · simpa [TransitionSystem.states] using states
  · exact ⟨_, List.mem_singleton_self _, initial, rfl⟩
  · exact List.forall_mem_singleton.2 .start

theorem of_eq_ok (answer : of net limit = .ok g) :
    Explored net limit g ∧ ∀ c ∈ g.marked, Closed net g c := by
  obtain ⟨system, s, added, explored, leave⟩ := exists_start net limit
  obtain ⟨_, first, rest⟩ := bind_eq_ok.1 answer
  obtain rfl := Except.ok.inj (added.symm.trans first)
  obtain ⟨explored, closed⟩ := explored.explore leave (by simp) rest
  refine ⟨explored, fun c member => ?_⟩
  obtain ⟨i, found⟩ := List.mem_iff_getElem?.1 member
  have inside := (List.getElem?_eq_some_iff.1 found).1
  have size := explored.size
  exact closed i (by omega) c found

theorem of_eq_error {e : Error} (answer : of net limit = .error e) :
    ∃ g c ps t, Fails net limit e g c ps t := by
  obtain ⟨system, s, added, explored, leave⟩ := exists_start net limit
  rcases bind_eq_error.1 answer with failed | ⟨_, first, rest⟩
  · simp [added] at failed
  · obtain rfl := Except.ok.inj (added.symm.trans first)
    exact explored.explore_error leave rest

/-- A state of the graph and its marking. -/
def Marks (g : MarkingGraph) (s : State) (m : Marking) : Prop :=
  ∃ c ∈ g.marked, c.state = s ∧ c.marking = m

/-- The states of a graph are the reachable markings, and its arcs are the ways to fire. -/
theorem matches_of (answer : of net limit = .ok g) : ∃ s, g.system.initial = some s ∧
    Matches (g.system.behaviour s) net.behaviour (Marks g) := by
  obtain ⟨explored, closed⟩ := of_eq_ok answer
  obtain ⟨first, member, initial, marking⟩ := explored.start
  refine ⟨first.state, initial, ⟨first, member, rfl, marking⟩, ?_, ?_, ?_, ?_⟩
  · rintro _ _ _ ⟨c, hc, state, rfl⟩ ⟨d, hd, state', rfl⟩
    rw [explored.eq_of_state hc hd (state.trans state'.symm)]
  · rintro _ _ _ ⟨c, hc, rfl, marking⟩ ⟨d, hd, rfl, marking'⟩
    rw [explored.eq_of_marking hc hd (marking.trans marking'.symm)]
  · rintro _ _ _ _ ⟨c, hc, rfl, rfl⟩ ⟨a, arc, source, rfl, rfl⟩
    obtain ⟨c', hc', d, hd, source', target, fires⟩ := explored.edges a arc
    obtain rfl := explored.eq_of_state hc hc' (source.symm.trans source')
    exact ⟨d.marking, ⟨d, hd, target.symm, rfl⟩, fires⟩
  · rintro _ _ _ l ⟨c, hc, rfl, rfl⟩ edge
    obtain ⟨t, inside, rfl, enabled, rfl⟩ := (edge_iff (explored.reached c hc)).1 edge
    obtain ⟨d, hd, marking, a, arc, source, label, target⟩ := (closed c hc).arcs t inside enabled
    exact ⟨d.state, ⟨d, hd, rfl, marking⟩, a, arc, source, label, target⟩

theorem exists_marked (answer : of net limit = .ok g) (reached : net.behaviour.Reaches m) :
    ∃ c ∈ g.marked, c.marking = m := by
  obtain ⟨explored, closed⟩ := of_eq_ok answer
  apply reached.invariant (P := fun m => ∃ c ∈ g.marked, c.marking = m)
  · obtain ⟨first, member, _, marking⟩ := explored.start
    exact ⟨first, member, marking⟩
  · rintro _ e k found ⟨c, hc, rfl⟩ edge
    obtain ⟨t, inside, rfl, enabled, rfl⟩ := (edge_iff found).1 edge
    obtain ⟨d, hd, marking, _⟩ := (closed c hc).arcs t inside enabled
    exact ⟨d, hd, marking⟩

theorem maxTokens_le_iff (answer : of net limit = .ok g) {k : Int} (nonneg : 0 ≤ k) :
    g.maxTokens ≤ k ↔ ∀ m : Marking, net.behaviour.Reaches m → ∀ x ∈ m, x ≤ k := by
  simp only [maxTokens, foldl_max_le_iff, nonneg, true_and, List.mem_flatMap,
    forall_exists_index, and_imp]
  constructor
  · intro below m reached x inside
    obtain ⟨c, hc, rfl⟩ := exists_marked answer reached
    exact below x c hc inside
  · intro below x c hc inside
    exact below c.marking ((of_eq_ok answer).1.reached c hc) x inside

/-- The graph is deterministic if the net is where it can get. -/
theorem isDeterministic_iff (answer : of net limit = .ok g) :
    g.system.isDeterministic = true ↔ net.Definite := by
  obtain ⟨explored, _⟩ := of_eq_ok answer
  constructor
  · intro det m reached e n k first second
    obtain ⟨s, _, pairs⟩ := matches_of answer
    obtain ⟨c, hc, rfl⟩ := exists_marked answer reached
    have here : Marks g c.state c.marking := ⟨c, hc, rfl, rfl⟩
    obtain ⟨t, there, arc⟩ := pairs.back _ _ _ _ here first
    obtain ⟨u, there', arc'⟩ := pairs.back _ _ _ _ here second
    obtain rfl := explored.wellFormed.behaviour_deterministic det s _ _ _ _ arc arc'
    exact pairs.image_unique _ _ _ there there'
  · intro definite
    refine TransitionSystem.isDeterministic_iff.2 fun i member => ?_
    rw [explored.wellFormed.outgoing_eq i member, List.Nodup, List.pairwise_map]
    refine (explored.wellFormed.arcs_differ.filter _).imp_of_mem
      fun {a b} ha hb differ label => ?_
    simp only [List.mem_filter, beq_iff_eq] at ha hb
    obtain ⟨c, hc, d, hd, source, target, fires⟩ := explored.edges a ha.1
    obtain ⟨c', hc', d', hd', source', target', fires'⟩ := explored.edges b hb.1
    obtain rfl := explored.eq_of_state hc hc'
      (source.symm.trans (ha.2.trans (hb.2.symm.trans source')))
    have same := definite _ (explored.reached c hc) _ _ _ fires (label ▸ fires')
    obtain rfl := explored.eq_of_marking hd hd' same
    simp [Arc.sameEdge, source, source', label, target, target'] at differ

end NetSynthesis.MarkingGraph
