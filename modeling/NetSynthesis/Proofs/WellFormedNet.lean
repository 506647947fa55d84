import Mathlib.Data.List.Nodup
import NetSynthesis.Net

/-! Nets after edits. Every edit that succeeds keeps the net well formed, and then an arc is found
by its ends, so that presets, postsets and weights all speak of the same arcs. -/
namespace NetSynthesis.Net

variable {net net' : Net} {source target id : String}

theorem hasPlace_iff : net.hasPlace id = true ↔ id ∈ net.places.map (·.id) := by
  simp only [hasPlace, List.any_eq_true, List.mem_map, beq_iff_eq]

theorem hasTransition_iff : net.hasTransition id = true ↔ id ∈ net.transitions.map (·.id) := by
  simp only [hasTransition, List.any_eq_true, List.mem_map, beq_iff_eq]

theorem hasNode_eq_false : net.hasNode id = false ↔
    id ∉ net.places.map (·.id) ∧ id ∉ net.transitions.map (·.id) := by
  rw [hasNode, Bool.or_eq_false_iff, ← Bool.not_eq_true, ← Bool.not_eq_true, hasPlace_iff,
    hasTransition_iff]

/-! ### Edits -/

theorem addPlace_eq_ok {id? : Option String} {tokens : Int} {place : Place}
    (added : net.addPlace id? tokens = .ok (net', place)) :
    0 ≤ tokens ∧ place.tokens = tokens.toNat ∧ net.hasNode place.id = false ∧
      net' = { net with places := net.places ++ [place] } := by
  rw [addPlace] at added
  simp only at added
  split at added
  · simp at added
  split at added
  · simp at added
  · rename_i fresh positive
    obtain ⟨rfl, rfl⟩ := Prod.mk.inj (Except.ok.inj added)
    exact ⟨by omega, rfl, by simpa using fresh, rfl⟩

theorem addTransition_eq_ok {transition : Transition}
    (added : net.addTransition id = .ok (net', transition)) :
    net.hasNode id = false ∧
      net' = { net with transitions := net.transitions ++ [⟨id, id⟩] } := by
  rw [addTransition] at added
  split at added
  · simp at added
  · rename_i fresh
    obtain ⟨rfl, rfl⟩ := Prod.mk.inj (Except.ok.inj added)
    exact ⟨by simpa using fresh, rfl⟩

theorem addFlow_eq_ok {weight : Int} {flow : Flow}
    (added : net.addFlow source target weight = .ok (net', flow)) :
    ((net.hasPlace source = true ∧ net.hasTransition target = true) ∨
      (net.hasTransition source = true ∧ net.hasPlace target = true)) ∧ 0 < weight ∧
    (source, target) ∉ net.flows.map (fun f => (f.source, f.target)) ∧
    net' = { net with flows := net.flows ++ [⟨source, target, weight.toNat⟩] } := by
  rw [addFlow] at added
  split at added
  · simp at added
  split at added
  · simp at added
  split at added
  · simp at added
  split at added
  · simp at added
  split at added
  · simp at added
  · rename_i knownSource knownTarget ends positive fresh
    obtain ⟨rfl, rfl⟩ := Prod.mk.inj (Except.ok.inj added)
    refine ⟨?_, by omega, ?_, rfl⟩
    · simp only [hasNode, Bool.not_eq_true', Bool.not_eq_false, Bool.or_eq_true] at knownSource
      simp only [hasNode, Bool.not_eq_true', Bool.not_eq_false, Bool.or_eq_true] at knownTarget
      cases isPlace : net.hasPlace source <;> cases other : net.hasPlace target <;> simp_all
    · simpa using fresh

theorem WellFormed.addPlace (wf : net.WellFormed) {id? : Option String} {tokens : Int}
    {place : Place} (added : net.addPlace id? tokens = .ok (net', place)) : net'.WellFormed := by
  obtain ⟨_, _, fresh, rfl⟩ := addPlace_eq_ok added
  obtain ⟨noPlace, noTransition⟩ := hasNode_eq_false.1 fresh
  refine ⟨?_, fun f member => ?_, wf.flows_differ, wf.weight_pos⟩
  · have nodup : (place.id :: (net.places.map (·.id) ++ net.transitions.map (·.id))).Nodup :=
      List.nodup_cons.2 ⟨by rw [List.mem_append]; rintro (h | h) <;> contradiction,
        wf.nodes_nodup⟩
    refine (List.Perm.nodup_iff ?_).1 nodup
    simpa using List.perm_middle.symm
  · simp only [hasPlace, List.any_append, Bool.or_eq_true] at *
    rcases wf.flow_ends f member with ⟨isPlace, isTransition⟩ | ⟨isTransition, isPlace⟩
    · exact .inl ⟨.inl isPlace, isTransition⟩
    · exact .inr ⟨isTransition, .inl isPlace⟩

theorem WellFormed.addTransition (wf : net.WellFormed) {transition : Transition}
    (added : net.addTransition id = .ok (net', transition)) : net'.WellFormed := by
  obtain ⟨fresh, rfl⟩ := addTransition_eq_ok added
  obtain ⟨noPlace, noTransition⟩ := hasNode_eq_false.1 fresh
  refine ⟨?_, fun f member => ?_, wf.flows_differ, wf.weight_pos⟩
  · have nodup : (id :: (net.places.map (·.id) ++ net.transitions.map (·.id))).Nodup :=
      List.nodup_cons.2 ⟨by rw [List.mem_append]; rintro (h | h) <;> contradiction,
        wf.nodes_nodup⟩
    refine (List.Perm.nodup_iff ?_).1 nodup
    rw [List.map_append, ← List.append_assoc]
    exact (List.perm_append_singleton _ _).symm
  · simp only [hasTransition, List.any_append, Bool.or_eq_true] at *
    rcases wf.flow_ends f member with ⟨isPlace, isTransition⟩ | ⟨isTransition, isPlace⟩
    · exact .inl ⟨isPlace, .inl isTransition⟩
    · exact .inr ⟨.inl isTransition, isPlace⟩

theorem WellFormed.addFlow (wf : net.WellFormed) {weight : Int} {flow : Flow}
    (added : net.addFlow source target weight = .ok (net', flow)) : net'.WellFormed := by
  obtain ⟨ends, positive, fresh, rfl⟩ := addFlow_eq_ok added
  refine ⟨wf.nodes_nodup, fun f member => ?_, ?_, fun f member => ?_⟩
  · rcases List.mem_append.1 member with old | new
    · exact wf.flow_ends f old
    · rw [List.mem_singleton.1 new]; exact ends
  · rw [List.map_append]
    exact List.nodup_append'.2 ⟨wf.flows_differ, by simp, by simpa using fresh⟩
  · rcases List.mem_append.1 member with old | new
    · exact wf.weight_pos f old
    · rw [List.mem_singleton.1 new]; simp only; omega

theorem WellFormed.empty (name : String) : ({ name } : Net).WellFormed :=
  ⟨by simp, by simp, by simp, by simp⟩

/-! ### Arcs by their ends -/

theorem weight_eq_zero
    (none : ∀ f ∈ net.flows, ¬ (f.source = source ∧ f.target = target)) :
    net.weight source target = 0 := by
  have missing : net.flows.find? (fun f => f.source == source && f.target == target) = .none :=
    List.find?_eq_none.2 fun f member => by simpa using none f member
  simp [weight, missing]

theorem WellFormed.weight_eq (wf : net.WellFormed) {f : Flow} (member : f ∈ net.flows) :
    net.weight f.source f.target = f.weight := by
  have unique : ∀ g ∈ net.flows, g.source = f.source → g.target = f.target → g = f :=
    fun g other source target =>
      List.inj_on_of_nodup_map wf.flows_differ other member (Prod.ext source target)
  cases found : net.flows.find? (fun g => g.source == f.source && g.target == f.target) with
  | none => simpa using List.find?_eq_none.1 found f member
  | some g =>
    have matched := List.find?_some found
    simp only [Bool.and_eq_true, beq_iff_eq] at matched
    obtain rfl := unique g (List.mem_of_find?_eq_some found) matched.1 matched.2
    simp [weight, found]

theorem WellFormed.weight_pos_iff (wf : net.WellFormed) : 0 < net.weight source target ↔
    ∃ f ∈ net.flows, f.source = source ∧ f.target = target := by
  constructor
  · intro positive
    by_contra missing
    rw [weight_eq_zero fun f member ends => missing ⟨f, member, ends⟩] at positive
    exact absurd positive (Nat.lt_irrefl 0)
  · rintro ⟨f, member, rfl, rfl⟩
    rw [wf.weight_eq member]
    exact wf.weight_pos f member

theorem WellFormed.mem_preset (wf : net.WellFormed) :
    source ∈ net.preset target ↔ 0 < net.weight source target := by
  rw [wf.weight_pos_iff, preset, List.mem_map]
  simp only [List.mem_filter, beq_iff_eq]
  exact ⟨fun ⟨f, ⟨member, ends⟩, same⟩ => ⟨f, member, same, ends⟩,
    fun ⟨f, member, same, ends⟩ => ⟨f, ⟨member, ends⟩, same⟩⟩

theorem WellFormed.mem_postset (wf : net.WellFormed) :
    target ∈ net.postset source ↔ 0 < net.weight source target := by
  rw [wf.weight_pos_iff, postset, List.mem_map]
  simp only [List.mem_filter, beq_iff_eq]
  exact ⟨fun ⟨f, ⟨member, ends⟩, same⟩ => ⟨f, member, ends, same⟩,
    fun ⟨f, member, ends, same⟩ => ⟨f, ⟨member, ends⟩, same⟩⟩

theorem WellFormed.preset_nodup (wf : net.WellFormed) (node : String) :
    (net.preset node).Nodup := by
  refine List.Nodup.map_on (fun f hf g hg same => ?_) (wf.flows_differ.of_map.filter _)
  simp only [List.mem_filter, beq_iff_eq] at hf hg
  exact List.inj_on_of_nodup_map wf.flows_differ hf.1 hg.1
    (Prod.ext same (hf.2.trans hg.2.symm))

theorem WellFormed.postset_nodup (wf : net.WellFormed) (node : String) :
    (net.postset node).Nodup := by
  refine List.Nodup.map_on (fun f hf g hg same => ?_) (wf.flows_differ.of_map.filter _)
  simp only [List.mem_filter, beq_iff_eq] at hf hg
  exact List.inj_on_of_nodup_map wf.flows_differ hf.1 hg.1
    (Prod.ext (hf.2.trans hg.2.symm) same)

/-! ### Firing -/

theorem fire_eq_ok {m k : Marking} (complete : net.places.length ≤ m.length) :
    net.fire m id = .ok k ↔ net.enables m id = true ∧ net.after m id = k := by
  unfold fire isEnabled
  cases enabled : net.enables m id with
  | false => simp [bind, Except.bind, throw, throwThe, MonadExceptOf.throw]
  | true => simp [bind, Except.bind, pure, Except.pure, Nat.not_lt.2 complete]

theorem fire_map_iff {α : Type} {xs : List α} {place : α → Place}
    (places : net.places = xs.map place) {tokens : α → Int} {k : Marking} :
    net.fire (xs.map tokens) id = .ok k ↔
      (∀ x ∈ xs, (net.weight (place x).id id : Int) ≤ tokens x) ∧
        (xs.map fun x => tokens x - net.weight (place x).id id + net.weight id (place x).id)
          = k := by
  rw [fire_eq_ok (by simp [places]), enables, after, places, List.zip_map', List.zipWith_map,
    List.zipWith_self, List.all_map, List.all_eq_true]
  simp

end NetSynthesis.Net
