import Mathlib.Data.List.Nodup
import Mathlib.Data.String.Basic
import NetSynthesis.Proofs.FreshNames
import NetSynthesis.Proofs.LabelledGraph
import NetSynthesis.Proofs.SearchedLists

/-! Systems whose copies of the arcs agree. Every edit of such a system gives such a system again,
and the arcs at a state are those of the system with this end. If no two arcs with one label leave
a state, the behaviour is deterministic. -/
namespace NetSynthesis

theorem mem_insertSorted {e x : String} {xs : List String} :
    x ∈ insertSorted e xs ↔ x = e ∨ x ∈ xs := by
  induction xs with
  | nil => simp [insertSorted]
  | cons y ys ih =>
    rw [insertSorted]
    split
    · rename_i same; subst same; simp
    · split <;> simp [ih, or_left_comm]

theorem insertSorted_pairwise {e : String} {xs : List String} (sorted : xs.Pairwise (· < ·)) :
    (insertSorted e xs).Pairwise (· < ·) := by
  induction xs with
  | nil => simp [insertSorted]
  | cons y ys ih =>
    obtain ⟨least, rest⟩ := List.pairwise_cons.1 sorted
    rw [insertSorted]
    split
    · exact sorted
    rename_i differ
    split
    · rename_i smaller
      refine List.pairwise_cons.2 ⟨fun z member => ?_, sorted⟩
      rcases List.mem_cons.1 member with rfl | member
      · exact smaller
      · exact lt_trans smaller (least z member)
    · rename_i notSmaller
      refine List.pairwise_cons.2 ⟨fun z member => ?_, ih rest⟩
      rcases mem_insertSorted.1 member with rfl | member
      · exact lt_of_le_of_ne (not_lt.1 notSmaller) (Ne.symm differ)
      · exact least z member

theorem insertSorted_of_mem {e : String} {xs : List String} (sorted : xs.Pairwise (· < ·))
    (member : e ∈ xs) : insertSorted e xs = xs := by
  induction xs with
  | nil => simp at member
  | cons y ys ih =>
    obtain ⟨least, rest⟩ := List.pairwise_cons.1 sorted
    rw [insertSorted]
    rcases List.mem_cons.1 member with rfl | inside
    · simp
    · have above := least e inside
      rw [if_neg above.ne', if_neg above.asymm, ih rest inside]

theorem insertSorted_of_last {e : String} {xs : List String} (last : ∀ x ∈ xs, x < e) :
    insertSorted e xs = xs ++ [e] := by
  induction xs with
  | nil => rfl
  | cons y ys ih =>
    have below := last y (by simp)
    rw [insertSorted]
    rw [if_neg below.ne', if_neg below.asymm, ih fun x member => last x (by simp [member])]
    rfl

namespace TransitionSystem

variable {ts grown : TransitionSystem}

theorem mem_of_incidence? {s : State} {i : Incidence} (found : ts.incidence? s = some i) :
    i ∈ ts.incidences ∧ i.state = s :=
  ⟨List.mem_of_find?_eq_some found, by simpa using List.find?_some found⟩

theorem incidence?_eq_none {s : State} : ts.incidence? s = none ↔ s ∉ ts.states := by
  simp [incidence?, states, List.find?_eq_none]

namespace WellFormed

/-- The arcs kept at a state are those of the system that leave it. -/
theorem outgoing_filter (wf : ts.WellFormed) (s : State) :
    ts.outgoing s = ts.arcs.filter (·.source == s) := by
  rw [outgoing]
  cases found : ts.incidence? s with
  | none =>
    have absent := incidence?_eq_none.1 found
    symm
    rw [Option.map_none, Option.getD_none, List.filter_eq_nil_iff]
    intro a member same
    exact absent (by simpa [← eq_of_beq same] using (wf.arc_ends a member).1)
  | some i =>
    obtain ⟨member, rfl⟩ := mem_of_incidence? found
    exact wf.outgoing_eq i member

theorem incoming_filter (wf : ts.WellFormed) (s : State) :
    ts.incoming s = ts.arcs.filter (·.target == s) := by
  rw [incoming]
  cases found : ts.incidence? s with
  | none =>
    have absent := incidence?_eq_none.1 found
    symm
    rw [Option.map_none, Option.getD_none, List.filter_eq_nil_iff]
    intro a member same
    exact absent (by simpa [← eq_of_beq same] using (wf.arc_ends a member).2)
  | some i =>
    obtain ⟨member, rfl⟩ := mem_of_incidence? found
    exact wf.incoming_eq i member

theorem mem_outgoing (wf : ts.WellFormed) {s : State} {a : Arc} :
    a ∈ ts.outgoing s ↔ a ∈ ts.arcs ∧ a.source = s := by
  simp [wf.outgoing_filter]

theorem mem_incoming (wf : ts.WellFormed) {s : State} {a : Arc} :
    a ∈ ts.incoming s ↔ a ∈ ts.arcs ∧ a.target = s := by
  simp [wf.incoming_filter]

theorem alphabet_nodup (wf : ts.WellFormed) : ts.alphabet.Nodup :=
  wf.alphabet_sorted.imp fun less => less.ne

theorem arcs_nodup (wf : ts.WellFormed) : ts.arcs.Nodup :=
  wf.arcs_differ.imp fun different same => by simp [same, Arc.sameEdge] at different

end WellFormed

/-! ### Determinism -/

theorem isDeterministic_iff : ts.isDeterministic = true ↔
    ∀ i ∈ ts.incidences, (i.outgoing.map (·.label)).Nodup := by
  simp [isDeterministic, nondeterministicStates, List.filter_eq_nil_iff]

theorem checkDeterministic_eq_ok : ts.checkDeterministic = .ok () ↔ ts.isDeterministic = true := by
  rw [checkDeterministic]
  cases ts.isDeterministic <;> simp

namespace WellFormed

theorem labels_nodup (_wf : ts.WellFormed) (det : ts.isDeterministic = true) (s : State) :
    ((ts.outgoing s).map (·.label)).Nodup := by
  rw [outgoing]
  cases found : ts.incidence? s with
  | none => simp
  | some i => exact isDeterministic_iff.1 det i (mem_of_incidence? found).1

theorem arc_unique (wf : ts.WellFormed) (det : ts.isDeterministic = true) {a b : Arc}
    (ma : a ∈ ts.arcs) (mb : b ∈ ts.arcs) (source : a.source = b.source)
    (label : a.label = b.label) : a = b :=
  List.inj_on_of_nodup_map (wf.labels_nodup det b.source)
    (wf.mem_outgoing.2 ⟨ma, source⟩) (wf.mem_outgoing.2 ⟨mb, rfl⟩) label

theorem outgoing_filter_label (wf : ts.WellFormed) (det : ts.isDeterministic = true) {a : Arc}
    (arc : a ∈ ts.arcs) : (ts.outgoing a.source).filter (·.label == a.label) = [a] := by
  have nodup := (wf.labels_nodup det a.source).of_map
  rw [← List.perm_singleton, List.perm_ext_iff_of_nodup (nodup.filter _) (List.nodup_singleton _)]
  intro b
  rw [List.mem_filter, List.mem_singleton, beq_iff_eq]
  constructor
  · rintro ⟨edge, label⟩
    obtain ⟨member, source⟩ := wf.mem_outgoing.1 edge
    exact wf.arc_unique det member arc source label
  · rintro rfl
    exact ⟨wf.mem_outgoing.2 ⟨arc, rfl⟩, rfl⟩

theorem behaviour_deterministic (wf : ts.WellFormed) (det : ts.isDeterministic = true)
    (root : State) : (ts.behaviour root).Deterministic := by
  rintro m e n k ⟨a, ma, source, label, target⟩ ⟨b, mb, source', label', target'⟩
  have same := wf.arc_unique det ma mb (source.trans source'.symm) (label.trans label'.symm)
  rw [← target, ← target', same]

end WellFormed

theorem next?_eq_none {s : State} {e : Event} :
    ts.next? s e = none ↔ ∀ a ∈ ts.outgoing s, a.label ≠ e := by
  simp [next?, List.find?_eq_none]

theorem WellFormed.next?_eq_some (wf : ts.WellFormed) (det : ts.isDeterministic = true)
    {s t : State} {e : Event} (root : State) :
    ts.next? s e = some t ↔ (ts.behaviour root).Edge s e t := by
  rw [next?, Option.map_eq_some_iff]
  constructor
  · rintro ⟨a, found, rfl⟩
    have label : a.label = e := by simpa using List.find?_some found
    obtain ⟨member, source⟩ := wf.mem_outgoing.1 (List.mem_of_find?_eq_some found)
    exact ⟨a, member, source, label, rfl⟩
  · rintro ⟨a, member, source, rfl, rfl⟩
    exact ⟨a, find?_of_nodup (wf.labels_nodup det s) (wf.mem_outgoing.2 ⟨member, source⟩), rfl⟩

theorem mem_foldl_insertSorted {e : Event} {arcs : List Arc} {es : List Event} :
    e ∈ arcs.foldl (fun es a => insertSorted a.label es) es ↔
      (∃ a ∈ arcs, a.label = e) ∨ e ∈ es := by
  induction arcs generalizing es with
  | nil => simp
  | cons a arcs ih =>
    rw [List.foldl_cons, ih, mem_insertSorted]
    simp [or_assoc, or_left_comm, eq_comm]

theorem WellFormed.mem_enabled (wf : ts.WellFormed) {s : State} {e : Event} (root : State) :
    e ∈ ts.enabled s ↔ ∃ t, (ts.behaviour root).Edge s e t := by
  rw [enabled, mem_foldl_insertSorted]
  constructor
  · rintro (⟨a, edge, label⟩ | none)
    · obtain ⟨member, source⟩ := wf.mem_outgoing.1 edge
      exact ⟨a.target, a, member, source, label, rfl⟩
    · simp at none
  · rintro ⟨t, a, member, source, label, _⟩
    exact .inl ⟨a, wf.mem_outgoing.2 ⟨member, source⟩, label⟩

theorem enabled_sorted (ts : TransitionSystem) (s : State) : (ts.enabled s).Pairwise (· < ·) := by
  have general (arcs : List Arc) (es : List Event) (sorted : es.Pairwise (· < ·)) :
      (arcs.foldl (fun es a => insertSorted a.label es) es).Pairwise (· < ·) := by
    induction arcs generalizing es with
    | nil => exact sorted
    | cons a arcs ih => exact ih _ (insertSorted_pairwise sorted)
  exact general _ [] .nil

/-! ### Edits -/

theorem addState_spec {name? : Option State} {s : State}
    (added : ts.addState name? = .ok (grown, s)) :
    s ∉ ts.states ∧ grown.states = ts.states ++ [s] ∧ grown.arcs = ts.arcs ∧
      grown.alphabet = ts.alphabet ∧ grown.initial = some (ts.initial.getD s) ∧
      grown.incidences = ts.incidences ++ [⟨s, [], []⟩] := by
  unfold addState at added
  simp only at added
  split at added
  · simp at added
  · rename_i fresh
    obtain ⟨rfl, rfl⟩ := Prod.mk.inj (Except.ok.inj added)
    exact ⟨by simpa using fresh, by simp [states], rfl, rfl, rfl, rfl⟩

theorem exists_addState (ts : TransitionSystem) : ∃ grown s, ts.addState = .ok (grown, s) := by
  have fresh := freshName_not_mem "s" ts.states.length ts.states
  simp only [addState, Option.getD_none]
  split
  · rename_i taken
    exact absurd (List.contains_iff_mem.1 taken) fresh
  · exact ⟨_, _, rfl⟩

theorem WellFormed.addState (wf : ts.WellFormed) {name? : Option State} {s : State}
    (added : ts.addState name? = .ok (grown, s)) : grown.WellFormed := by
  obtain ⟨fresh, hs, ha, hal, hi, hinc⟩ := addState_spec added
  have old : ∀ a ∈ ts.arcs, a.source ≠ s ∧ a.target ≠ s := by
    intro a member
    obtain ⟨source, target⟩ := wf.arc_ends a member
    exact ⟨fun same => fresh (same ▸ source), fun same => fresh (same ▸ target)⟩
  constructor
  · rw [hs, List.nodup_append]
    exact ⟨wf.states_nodup, by simp, by rintro a member b single rfl; simp_all⟩
  · intro a member
    rw [ha] at member
    rw [hs]
    obtain ⟨source, target⟩ := wf.arc_ends a member
    exact ⟨List.mem_append_left _ source, List.mem_append_left _ target⟩
  · rw [ha]; exact wf.arcs_differ
  · rw [ha, hinc]
    intro i member
    rcases List.mem_append.1 member with member | single
    · exact wf.outgoing_eq i member
    · obtain rfl := List.mem_singleton.1 single
      symm; simpa [List.filter_eq_nil_iff] using fun a m => (old a m).1
  · rw [ha, hinc]
    intro i member
    rcases List.mem_append.1 member with member | single
    · exact wf.incoming_eq i member
    · obtain rfl := List.mem_singleton.1 single
      symm; simpa [List.filter_eq_nil_iff] using fun a m => (old a m).2
  · rw [hal]; exact wf.alphabet_sorted
  · rw [ha, hal]; exact wf.labels_mem
  · rw [hi, hs]
    intro t member
    obtain rfl := Option.some.inj member
    cases initial : ts.initial with
    | none => simp
    | some t => exact List.mem_append_left _ (wf.initial_mem t initial)
  · rw [hi]; simp

theorem addArc_eq_ok {a : Arc} : ts.addArc a = .ok grown ↔
    a.source ∈ ts.states ∧ a.target ∈ ts.states ∧ (ts.outgoing a.source).all (!a.sameEdge ·) ∧
    grown = { ts with
      incidences := ts.incidences.map fun i => { i with
        outgoing := if i.state = a.source then i.outgoing ++ [a] else i.outgoing
        incoming := if i.state = a.target then i.incoming ++ [a] else i.incoming }
      arcs := ts.arcs ++ [a]
      alphabet := insertSorted a.label ts.alphabet
      version := ts.version + 1 } := by
  rw [addArc]
  by_cases source : a.source ∈ ts.states
  · by_cases target : a.target ∈ ts.states
    · by_cases dup : (ts.outgoing a.source).any a.sameEdge = true
      · have : ¬ (ts.outgoing a.source).all (!a.sameEdge ·) = true := by
          simpa using dup
        simp [source, target, dup, this]
      · have : (ts.outgoing a.source).all (!a.sameEdge ·) = true := by
          simpa using dup
        simp [source, target, dup, this, eq_comm]
    · simp [source, target]
  · simp [source]

theorem addArc_eq_error (wf : ts.WellFormed) {a : Arc} {e : Error} (source : a.source ∈ ts.states)
    (target : a.target ∈ ts.states) (refused : ts.addArc a = .error e) :
    e = .duplicateArc a.source a.label a.target ∧
      ∃ b ∈ ts.arcs, b.source = a.source ∧ b.label = a.label ∧ b.target = a.target := by
  have known : ts.states.contains a.source = true := List.contains_iff_mem.2 source
  have known' : ts.states.contains a.target = true := List.contains_iff_mem.2 target
  simp only [addArc, known, known', Bool.not_true, Bool.false_eq_true, if_false] at refused
  split at refused
  · rename_i there
    obtain ⟨b, edge, same⟩ := List.any_eq_true.1 there
    simp only [Arc.sameEdge, Bool.and_eq_true, beq_iff_eq] at same
    exact ⟨(Except.error.inj refused).symm, b, (wf.mem_outgoing.1 edge).1, same.1.1.symm,
      same.1.2.symm, same.2.symm⟩
  · simp at refused

theorem addArc_fresh (wf : ts.WellFormed) {a b : Arc} (added : ts.addArc a = .ok grown)
    (member : b ∈ ts.arcs) :
    ¬ (b.source = a.source ∧ b.label = a.label ∧ b.target = a.target) := by
  rintro ⟨source, label, target⟩
  obtain ⟨_, _, fresh, _⟩ := addArc_eq_ok.1 added
  have differ := List.all_eq_true.1 fresh b (wf.mem_outgoing.2 ⟨member, source⟩)
  simp [Arc.sameEdge, source, label, target] at differ

theorem addArc_spec {a : Arc} (added : ts.addArc a = .ok grown) :
    grown.states = ts.states ∧ grown.arcs = ts.arcs ++ [a] ∧
      grown.alphabet = insertSorted a.label ts.alphabet ∧ grown.initial = ts.initial := by
  obtain ⟨_, _, _, rfl⟩ := addArc_eq_ok.1 added
  exact ⟨by simp [states, Function.comp_def], rfl, rfl, rfl⟩

theorem WellFormed.addArc (wf : ts.WellFormed) {a : Arc} (added : ts.addArc a = .ok grown) :
    grown.WellFormed := by
  obtain ⟨hs, _, _, _⟩ := addArc_spec added
  obtain ⟨source, target, different, rfl⟩ := addArc_eq_ok.1 added
  constructor
  · rw [hs]; exact wf.states_nodup
  · intro b member
    rw [hs]
    rcases List.mem_append.1 member with member | single
    · exact wf.arc_ends b member
    · obtain rfl := List.mem_singleton.1 single
      exact ⟨source, target⟩
  · refine List.pairwise_append.2 ⟨wf.arcs_differ, by simp, fun b member c single => ?_⟩
    obtain rfl := List.mem_singleton.1 single
    by_cases same : b.source = c.source
    · have := List.all_eq_true.1 different b (wf.mem_outgoing.2 ⟨member, same⟩)
      simp only [Arc.sameEdge, Bool.not_eq_true', Bool.and_eq_false_iff, beq_eq_false_iff_ne]
        at this ⊢
      tauto
    · simp [Arc.sameEdge, same]
  · intro i member
    obtain ⟨j, old, rfl⟩ := List.mem_map.1 member
    rw [List.filter_append, ← wf.outgoing_eq j old]
    by_cases same : j.state = a.source
    · simp [same]
    · simp [same, Ne.symm same]
  · intro i member
    obtain ⟨j, old, rfl⟩ := List.mem_map.1 member
    rw [List.filter_append, ← wf.incoming_eq j old]
    by_cases same : j.state = a.target
    · simp [same]
    · simp [same, Ne.symm same]
  · exact insertSorted_pairwise wf.alphabet_sorted
  · intro b member
    rcases List.mem_append.1 member with member | single
    · exact mem_insertSorted.2 (.inr (wf.labels_mem b member))
    · obtain rfl := List.mem_singleton.1 single
      exact mem_insertSorted.2 (.inl rfl)
  · rw [hs]; exact wf.initial_mem
  · rw [hs]; exact wf.initial_isSome

theorem WellFormed.addEvent (wf : ts.WellFormed) (e : Event) : (ts.addEvent e).WellFormed :=
  { wf with
    alphabet_sorted := insertSorted_pairwise wf.alphabet_sorted
    labels_mem := fun a member => mem_insertSorted.2 (.inr (wf.labels_mem a member)) }

theorem setInitial_eq_ok {s : State} : ts.setInitial s = .ok grown ↔
    s ∈ ts.states ∧ grown = { ts with initial := some s, version := ts.version + 1 } := by
  rw [setInitial]
  by_cases member : s ∈ ts.states <;> simp [member, eq_comm]

theorem WellFormed.setInitial (wf : ts.WellFormed) {s : State}
    (changed : ts.setInitial s = .ok grown) : grown.WellFormed := by
  obtain ⟨member, rfl⟩ := setInitial_eq_ok.1 changed
  exact { wf with
    initial_mem := by rintro t same; obtain rfl := Option.some.inj same; exact member
    initial_isSome := by simp }

theorem WellFormed.empty (name : String) : ({ name } : TransitionSystem).WellFormed := by
  constructor <;> simp [states]

end TransitionSystem

end NetSynthesis
