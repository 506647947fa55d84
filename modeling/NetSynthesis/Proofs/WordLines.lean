import NetSynthesis.Proofs.ExceptSteps
import NetSynthesis.Proofs.FreshNames
import NetSynthesis.Proofs.WellFormedSystem

/-! Words as systems. The line of a word has a state for each number of letters that have been read
and an arc for each letter, so that it can do the prefixes of the word and nothing else. -/
namespace NetSynthesis.TransitionSystem

open LabelledGraph

variable {ts : TransitionSystem} {word v : List Event} {s : State} {e : Event}

def lineState (k : Nat) : State := s!"s{k}"

theorem lineState_inj {j k : Nat} (same : lineState j = lineState k) : j = k :=
  repr_injective ((String.append_right_inj "s").1 same)

def lineArcs (word : List Event) : List Arc :=
  word.zipIdx.map fun (e, k) => ⟨lineState k, e, lineState (k + 1), none⟩

theorem mem_lineArcs {a : Arc} : a ∈ lineArcs word ↔ ∃ k, word[k]? = some a.label ∧
    a.source = lineState k ∧ a.target = lineState (k + 1) ∧ a.location = none := by
  simp only [lineArcs, List.mem_map, List.mem_zipIdx_iff_getElem?, Prod.exists]
  constructor
  · rintro ⟨e, k, letter, rfl⟩
    exact ⟨k, letter, rfl, rfl, rfl⟩
  · rintro ⟨k, letter, source, target, location⟩
    exact ⟨a.label, k, letter, by rw [← source, ← target, ← location]⟩

theorem lineArcs_snoc (word : List Event) (e : Event) : lineArcs (word ++ [e]) =
    lineArcs word ++ [⟨lineState word.length, e, lineState (word.length + 1), none⟩] := by
  simp [lineArcs, List.zipIdx_append]

/-- A system is the line of a word. -/
structure IsLine (word : List Event) (ts : TransitionSystem) : Prop where
  wellFormed : ts.WellFormed
  initial : ts.initial = some (lineState 0)
  states : ts.states = (List.range (word.length + 1)).map lineState
  arcs : ts.arcs = lineArcs word
  mem_alphabet : ∀ e, e ∈ ts.alphabet ↔ e ∈ word

namespace IsLine

theorem snoc (line : IsLine word ts) (e : Event) : ∃ grown last,
    ts.addState (some (lineState ts.states.length)) =
      .ok (grown, lineState (word.length + 1)) ∧
    grown.addArc ⟨lineState word.length, e, lineState (word.length + 1), none⟩ = .ok last ∧
    IsLine (word ++ [e]) last := by
  have length : ts.states.length = word.length + 1 := by simp [line.states]
  have fresh : lineState (word.length + 1) ∉ ts.states := by
    rw [line.states]
    intro member
    obtain ⟨k, before, same⟩ := List.mem_map.1 member
    have := lineState_inj same
    have := List.mem_range.1 before
    omega
  obtain ⟨grown, added⟩ : ∃ grown, ts.addState (some (lineState ts.states.length)) =
      .ok (grown, lineState (word.length + 1)) := by
    simp [addState, length, fresh]
  obtain ⟨_, states, arcs, alphabet, initial, _⟩ := addState_spec added
  have wf := line.wellFormed.addState added
  have source : lineState word.length ∈ ts.states := by
    rw [line.states]
    exact List.mem_map_of_mem (List.mem_range.2 word.length.lt_succ_self)
  obtain ⟨last, joined⟩ : ∃ last, grown.addArc
      ⟨lineState word.length, e, lineState (word.length + 1), none⟩ = .ok last := by
    cases answer : grown.addArc
        ⟨lineState word.length, e, lineState (word.length + 1), none⟩ with
    | ok last => exact ⟨last, rfl⟩
    | error refused =>
      obtain ⟨_, b, member, _, _, target⟩ := addArc_eq_error wf (by simp [states, source])
        (by simp [states]) answer
      rw [arcs] at member
      have known := (line.wellFormed.arc_ends b member).2
      rw [target] at known
      exact absurd known fresh
  obtain ⟨states', arcs', alphabet', initial'⟩ := addArc_spec joined
  refine ⟨grown, last, added, joined, wf.addArc joined, ?_, ?_, ?_, fun e' => ?_⟩
  · rw [initial', initial, line.initial]
    rfl
  · rw [states', states, line.states, List.length_append, List.length_singleton,
      List.range_succ (n := word.length + 1), List.map_append]
    rfl
  · rw [arcs', arcs, line.arcs, lineArcs_snoc]
  · rw [alphabet', mem_insertSorted, alphabet, line.mem_alphabet]
    simp [or_comm]

end IsLine

def addLetter (line : State × TransitionSystem) (e : Event) :
    Except Error (State × TransitionSystem) := do
  let (ts, current) ← line.2.addState (some s!"s{line.2.states.length}")
  let ts ← ts.addArc ⟨line.1, e, current, none⟩
  return (current, ts)

theorem IsLine.foldlM_addLetter (line : IsLine word ts) (rest : List Event) :
    ∃ s last, rest.foldlM addLetter (lineState word.length, ts) = .ok (s, last) ∧
      IsLine (word ++ rest) last := by
  induction rest generalizing word ts with
  | nil => exact ⟨_, ts, rfl, by simpa using line⟩
  | cons e rest ih =>
    obtain ⟨grown, last, added, joined, longer⟩ := line.snoc e
    have step : addLetter (lineState word.length, ts) e =
        .ok (lineState (word ++ [e]).length, last) :=
      bind_eq_ok.2 ⟨_, added, bind_eq_ok.2 ⟨_, joined, by simp [pure, Except.pure]⟩⟩
    obtain ⟨s, whole, run, line⟩ := ih longer
    refine ⟨s, whole, ?_, by simpa using line⟩
    rw [List.foldlM_cons]
    exact bind_eq_ok.2 ⟨_, step, run⟩

theorem exists_line (word : List Event) : ∃ ts, ofWord word = .ok ts ∧ IsLine word ts := by
  obtain ⟨start, added⟩ : ∃ start, ({ name := String.join word } : TransitionSystem).addState
      (some "s0") = .ok (start, lineState 0) := ⟨_, rfl⟩
  obtain ⟨_, states, arcs, alphabet, initial, _⟩ := addState_spec added
  have line : IsLine [] start := ⟨(WellFormed.empty _).addState added, initial, states, arcs,
    by simp [alphabet]⟩
  obtain ⟨s, last, run, line⟩ := line.foldlM_addLetter word
  exact ⟨last, bind_eq_ok.2 ⟨_, added, bind_eq_ok.2 ⟨_, run, rfl⟩⟩, line⟩

/-! ### What a line can do -/

theorem concat_prefix_iff : v ++ [e] <+: word ↔ v <+: word ∧ word[v.length]? = some e := by
  constructor
  · rintro ⟨rest, rfl⟩
    simp
  · rintro ⟨⟨rest, rfl⟩, letter⟩
    cases rest with
    | nil => simp at letter
    | cons x rest =>
      obtain rfl : x = e := by simpa using letter
      exact ⟨rest, by simp⟩

namespace IsLine

variable (line : IsLine word ts)

include line

theorem isDeterministic : ts.isDeterministic = true := by
  refine isDeterministic_iff.2 fun i member => ?_
  rw [line.wellFormed.outgoing_eq i member, List.Nodup, List.pairwise_map]
  refine (line.wellFormed.arcs_differ.filter _).imp_of_mem fun {a b} ha hb differ label => ?_
  simp only [List.mem_filter, beq_iff_eq, line.arcs, mem_lineArcs] at ha hb
  obtain ⟨⟨j, _, source, target, _⟩, state⟩ := ha
  obtain ⟨⟨k, _, source', target', _⟩, state'⟩ := hb
  obtain rfl := lineState_inj (source.symm.trans (state.trans (state'.symm.trans source')))
  simp [Arc.sameEdge, source, source', label, target, target'] at differ

theorem edge_iff {k : Nat} {t : State} : (ts.behaviour (lineState 0)).Edge (lineState k) e t ↔
    word[k]? = some e ∧ t = lineState (k + 1) := by
  constructor
  · rintro ⟨a, arc, source, rfl, rfl⟩
    rw [line.arcs, mem_lineArcs] at arc
    obtain ⟨j, letter, source', target, _⟩ := arc
    obtain rfl := lineState_inj (source.symm.trans source')
    exact ⟨letter, target⟩
  · rintro ⟨letter, rfl⟩
    refine ⟨⟨lineState k, e, lineState (k + 1), none⟩, ?_, rfl, rfl, rfl⟩
    rw [line.arcs, mem_lineArcs]
    exact ⟨k, letter, rfl, rfl, rfl⟩

/-- The paths of a line are the prefixes of its word. -/
theorem path_iff : (ts.behaviour (lineState 0)).Path (lineState 0) v s ↔
    v <+: word ∧ s = lineState v.length := by
  constructor
  · have prefixes {u : List Event} {n : (ts.behaviour (lineState 0)).Node}
        (path : (ts.behaviour (lineState 0)).Path (lineState 0) u n) :
        u <+: word ∧ n = lineState u.length := by
      induction path with
      | nil => exact ⟨List.nil_prefix, rfl⟩
      | snoc _ edge ih =>
        obtain ⟨before, rfl⟩ := ih
        obtain ⟨letter, target⟩ := line.edge_iff.1 edge
        rw [List.length_append, List.length_singleton]
        exact ⟨concat_prefix_iff.2 ⟨before, letter⟩, target⟩
    exact prefixes
  · rintro ⟨before, rfl⟩
    induction v using List.reverseRecOn with
    | nil => exact .nil
    | append_singleton v e ih =>
      obtain ⟨shorter, letter⟩ := concat_prefix_iff.1 before
      rw [List.length_append, List.length_singleton]
      exact .snoc (ih shorter) (line.edge_iff.2 ⟨letter, rfl⟩)

end IsLine

end NetSynthesis.TransitionSystem
