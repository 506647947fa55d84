import NetSynthesis.Proofs.IsomorphismWalk

/-! The comparison of two deterministic systems decides whether they are isomorphic. It pairs the
states that the same words lead to, and if all goes well the pairs are the isomorphism: each state
that can be reached on the left has just one partner, and no other state has any. Otherwise the word
of the conflict is evidence that the systems differ. -/
namespace NetSynthesis

open LabelledGraph

variable {left right : TransitionSystem} {s t : State}

/-- The parts that can be reached from the initial states are isomorphic. Two systems that have no
initial state are, and a system with one is not isomorphic to a system without. -/
def TransitionSystem.Isomorphic (left right : TransitionSystem) : Prop :=
  match left.initial, right.initial with
  | some s, some t => (left.behaviour s).Isomorphic (right.behaviour t)
  | none, none => True
  | _, _ => False

namespace Isomorphism

/-- A table of an isomorphism: it has one entry for each state that can be reached on the left, and
no others. -/
structure IsTable (left right : TransitionSystem) (s t : State) (table : List (State × State)) :
    Prop where
  keys_nodup : (table.map (·.1)).Nodup
  agrees : ∃ iso : LabelledGraph.Isomorphism (left.behaviour s) (right.behaviour t), ∀ x y,
    table.lookup x = some y ↔ ∃ reached, (iso.nodes ⟨x, reached⟩).1 = y

section Deterministic

variable (wfl : left.WellFormed) (wfr : right.WellFormed) (detr : right.isDeterministic = true)

include wfl wfr detr

theorem isTable_of_walk (start : s ∈ left.states) {pairs : List Pairing}
    (answer : walk left right s t = .ok pairs) :
    IsTable left right s t (pairs.map fun p => (p.state, p.image)) := by
  have sound := (rounds_compared wfl wfr detr _ answer).1
  obtain ⟨same, reached⟩ := matches_of_walk wfl wfr detr start answer
  obtain ⟨iso, paired⟩ := same.exists_isomorphism
  have nodup : ((pairs.map fun p => (p.state, p.image)).map (·.1)).Nodup := by
    rw [List.map_map]
    exact sound.states_nodup
  refine ⟨nodup, iso, fun x y => ?_⟩
  rw [lookup_eq_some_iff_mem nodup, List.mem_map]
  constructor
  · rintro ⟨p, member, entry⟩
    obtain ⟨rfl, rfl⟩ := Prod.mk.inj entry
    have found := reached p member
    exact ⟨found, same.image_unique _ _ _ (paired ⟨p.state, found⟩) ⟨p, member, rfl, rfl⟩⟩
  · rintro ⟨found, rfl⟩
    obtain ⟨p, member, state, image⟩ := paired ⟨x, found⟩
    exact ⟨p, member, Prod.ext state image⟩

omit wfl wfr in
theorem isomorphism_eq_walk (detl : left.isDeterministic = true) (initial : left.initial = some s)
    (initial' : right.initial = some t) : isomorphism left right =
      match walk left right s t with
      | .ok pairs => .ok (.isomorphic (pairs.map fun p => (p.state, p.image)))
      | .error w => .ok (.different w) := by
  cases answer : walk left right s t <;>
    simp [isomorphism, TransitionSystem.checkDeterministic, detl, detr, initial, initial', answer,
      bind, Except.bind, pure, Except.pure]

/-- The comparison of two systems with initial states always answers, and its answer is whether
they are isomorphic. -/
theorem isomorphism_eq_ok (detl : left.isDeterministic = true) (initial : left.initial = some s)
    (initial' : right.initial = some t) : ∃ v, isomorphism left right = .ok v ∧
      (v.holds = true ↔ (left.behaviour s).Isomorphic (right.behaviour t)) ∧
      (v.holds = true → IsTable left right s t v.mapping) := by
  have start : s ∈ left.states := wfl.initial_mem s initial
  rw [isomorphism_eq_walk detr detl initial initial']
  cases answer : walk left right s t with
  | ok pairs =>
    have table := isTable_of_walk wfl wfr detr start answer
    obtain ⟨iso, _⟩ := table.agrees
    exact ⟨_, rfl, ⟨fun _ => ⟨iso⟩, fun _ => rfl⟩, fun _ => table⟩
  | error w =>
    have apart := tellsApart_of_walk wfl wfr detr answer
    have other := apart.not_isomorphic (wfr.behaviour_deterministic detr t)
    have negative : (Verdict.different w).holds ≠ true := by simp [Verdict.holds]
    exact ⟨_, rfl, ⟨fun wrong => absurd wrong negative, fun same => absurd same other⟩,
      fun wrong => absurd wrong negative⟩

end Deterministic

theorem isomorphism_eq_ok_of_none (detl : left.isDeterministic = true)
    (detr : right.isDeterministic = true) (missing : left.initial = none ∨ right.initial = none) :
    ∃ v, isomorphism left right = .ok v ∧ (v.holds = true ↔ left.Isomorphic right) := by
  rw [isomorphism, TransitionSystem.checkDeterministic_eq_ok.2 detl,
    TransitionSystem.checkDeterministic_eq_ok.2 detr, TransitionSystem.Isomorphic]
  cases first : left.initial with
  | none =>
    cases right.initial with
    | none => exact ⟨.isomorphic [], rfl, by simp [Verdict.holds]⟩
    | some t => exact ⟨.different [], rfl, by simp [Verdict.holds]⟩
  | some s =>
    have second : right.initial = none := missing.resolve_left (by simp [first])
    rw [second]
    exact ⟨.different [], rfl, by simp [Verdict.holds]⟩

end Isomorphism

open Isomorphism in
/-- The comparison of two deterministic systems always answers. Its answer is whether they are
isomorphic, and if they are, and have initial states, it comes with the isomorphism. -/
theorem isomorphism_decides (wfl : left.WellFormed) (wfr : right.WellFormed)
    (detl : left.isDeterministic = true) (detr : right.isDeterministic = true) :
    ∃ v, isomorphism left right = .ok v ∧ (v.holds = true ↔ left.Isomorphic right) ∧
      ∀ s t, left.initial = some s → right.initial = some t → v.holds = true →
        IsTable left right s t v.mapping := by
  cases first : left.initial with
  | none =>
    obtain ⟨v, answer, holds⟩ := isomorphism_eq_ok_of_none detl detr (.inl first)
    exact ⟨v, answer, holds, by simp⟩
  | some s =>
    cases second : right.initial with
    | none =>
      obtain ⟨v, answer, holds⟩ := isomorphism_eq_ok_of_none detl detr (.inr second)
      exact ⟨v, answer, holds, by simp⟩
    | some t =>
      obtain ⟨v, answer, holds, table⟩ := isomorphism_eq_ok wfl wfr detr detl first second
      refine ⟨v, answer, ?_, ?_⟩
      · rw [holds, TransitionSystem.Isomorphic, first, second]
      · rintro _ _ ⟨⟩ ⟨⟩
        exact table

/-- A cycle of two states, and a state that cannot be reached. -/
def strayBlinker : TransitionSystem :=
  let up : Arc := ⟨"low", "up", "high", none⟩
  let stray : Arc := ⟨"stray", "up", "high", none⟩
  let down : Arc := ⟨"high", "down", "low", none⟩
  { initial := some "low"
    incidences := [⟨"high", [down], [up, stray]⟩, ⟨"stray", [stray], []⟩, ⟨"low", [up], [down]⟩]
    arcs := [up, stray, down]
    alphabet := ["down", "up"] }

def idleBlinker : TransitionSystem :=
  let up : Arc := ⟨"off", "up", "on", some "here"⟩
  let down : Arc := ⟨"on", "down", "off", some "there"⟩
  { initial := some "off"
    incidences := [⟨"off", [up], [down]⟩, ⟨"on", [down], [up]⟩]
    arcs := [up, down]
    alphabet := ["down", "idle", "up"] }

theorem strayBlinker_wellFormed : strayBlinker.WellFormed := by
  constructor <;> decide

theorem idleBlinker_wellFormed : idleBlinker.WellFormed := by
  constructor <;> decide

open Isomorphism in
theorem isomorphism_decides_blinkers :
    strayBlinker.isDeterministic = true ∧ idleBlinker.isDeterministic = true ∧
      ∃ v, isomorphism strayBlinker idleBlinker = .ok v ∧ v.holds = true ∧
        strayBlinker.Isomorphic idleBlinker ∧
          IsTable strayBlinker idleBlinker "low" "off" v.mapping := by
  obtain ⟨v, answer, holds, table⟩ :=
    isomorphism_decides strayBlinker_wellFormed idleBlinker_wellFormed (by decide) (by decide)
  have computed : isomorphism strayBlinker idleBlinker =
      .ok (.isomorphic [("low", "off"), ("high", "on")]) := by decide
  have positive : v.holds = true := by
    rw [← Except.ok.inj (computed.symm.trans answer)]
    rfl
  exact ⟨by decide, by decide, v, answer, positive, holds.1 positive, table _ _ rfl rfl positive⟩

/-! ### Evidence of a difference -/

namespace Isomorphism

/-- A word is possible in both systems and shows a difference. The states that it leads to enable
different events, or in one of the systems another word leads to the same state as this word, but in
the other system to a different state. -/
def Evidence (left right : TransitionSystem) (s t : State) (w : List Event) : Prop :=
  ∃ x y, (left.behaviour s).Path s w x ∧ (right.behaviour t).Path t w y ∧
    ((∃ e, ¬ (e ∈ left.enabled x ↔ e ∈ right.enabled y)) ∨
      ∃ v, v ≠ w ∧ ∃ x' y', (left.behaviour s).Path s v x' ∧ (right.behaviour t).Path t v y' ∧
        (x' = x ∧ y' ≠ y ∨ x' ≠ x ∧ y' = y))

/-- What tells deterministic systems apart is evidence. A word leads to one state of a system only,
so that the word of a conflict is another one. -/
theorem evidence_of_tellsApart {w : List Event} (wfl : left.WellFormed) (wfr : right.WellFormed)
    (detl : left.isDeterministic = true) (detr : right.isDeterministic = true)
    (apart : TellsApart (left.behaviour s) (right.behaviour t) w) : Evidence left right s t w := by
  obtain ⟨x, y, onLeft, onRight, ⟨e, differ⟩ | ⟨v, x', y', onLeft', onRight', conflict⟩⟩ := apart
  · have enabled : ¬ (e ∈ left.enabled x ↔ e ∈ right.enabled y) := fun same =>
      differ (((wfl.mem_enabled s).symm.trans same).trans (wfr.mem_enabled t))
    exact ⟨x, y, onLeft, onRight, .inl ⟨e, enabled⟩⟩
  · have other : v ≠ w := by
      rintro rfl
      have same : x' = x := (wfl.behaviour_deterministic detl s).path_unique onLeft' onLeft
      have same' : y' = y := (wfr.behaviour_deterministic detr t).path_unique onRight' onRight
      exact conflict (iff_of_true same same')
    have joined : x' = x ∧ y' ≠ y ∨ x' ≠ x ∧ y' = y := by
      by_cases same : x' = x
      · exact .inl ⟨same, fun same' => conflict (iff_of_true same same')⟩
      · exact .inr ⟨same, by_contra fun differ => conflict (iff_of_false same differ)⟩
    exact ⟨x, y, onLeft, onRight, .inr ⟨v, other, x', y', onLeft', onRight', joined⟩⟩

end Isomorphism

open Isomorphism in
/-- The comparison of two deterministic systems with initial states always answers, and where it
says that they differ, it comes with a word that is evidence of the difference. -/
theorem isomorphism_evidence (wfl : left.WellFormed) (wfr : right.WellFormed)
    (detl : left.isDeterministic = true) (detr : right.isDeterministic = true)
    (initial : left.initial = some s) (initial' : right.initial = some t) :
    ∃ v, isomorphism left right = .ok v ∧
      (v.holds = false → ∃ w, v.witness? = some w ∧ Evidence left right s t w) := by
  rw [isomorphism_eq_walk detr detl initial initial']
  cases answer : walk left right s t with
  | ok pairs => exact ⟨_, rfl, by simp [Verdict.holds]⟩
  | error w =>
    have apart := tellsApart_of_walk wfl wfr detr answer
    exact ⟨_, rfl, fun _ => ⟨w, rfl, evidence_of_tellsApart wfl wfr detl detr apart⟩⟩

def square : TransitionSystem :=
  let a : Arc := ⟨"start", "a", "east", none⟩
  let b : Arc := ⟨"start", "b", "north", none⟩
  let ab : Arc := ⟨"east", "b", "end", none⟩
  let ba : Arc := ⟨"north", "a", "end", none⟩
  { initial := some "start"
    incidences := [⟨"start", [a, b], []⟩, ⟨"east", [ab], [a]⟩, ⟨"north", [ba], [b]⟩,
      ⟨"end", [], [ab, ba]⟩]
    arcs := [a, b, ab, ba]
    alphabet := ["a", "b"] }

/-- Two events in either order, with a last state for each order. -/
def openSquare : TransitionSystem :=
  let a : Arc := ⟨"start", "a", "east", none⟩
  let b : Arc := ⟨"start", "b", "north", none⟩
  let ab : Arc := ⟨"east", "b", "end", none⟩
  let ba : Arc := ⟨"north", "a", "other end", none⟩
  { initial := some "start"
    incidences := [⟨"start", [a, b], []⟩, ⟨"east", [ab], [a]⟩, ⟨"north", [ba], [b]⟩,
      ⟨"end", [], [ab]⟩, ⟨"other end", [], [ba]⟩]
    arcs := [a, b, ab, ba]
    alphabet := ["a", "b"] }

theorem square_wellFormed : square.WellFormed := by
  constructor <;> decide

theorem openSquare_wellFormed : openSquare.WellFormed := by
  constructor <;> decide

open Isomorphism in
theorem isomorphism_evidence_squares :
    openSquare.isDeterministic = true ∧ square.isDeterministic = true ∧
      isomorphism openSquare square = .ok (.different ["b", "a"]) ∧
        Evidence openSquare square "start" "start" ["b", "a"] := by
  have computed : isomorphism openSquare square = .ok (.different ["b", "a"]) := by decide
  obtain ⟨v, answer, evidence⟩ := isomorphism_evidence openSquare_wellFormed square_wellFormed
    (by decide) (by decide) (s := "start") (t := "start") rfl rfl
  obtain rfl : Verdict.different ["b", "a"] = v := Except.ok.inj (computed.symm.trans answer)
  obtain ⟨w, found, shows⟩ := evidence rfl
  obtain rfl : ["b", "a"] = w := Option.some.inj found
  exact ⟨by decide, by decide, computed, shows⟩

end NetSynthesis
