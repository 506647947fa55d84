import Mathlib.Algebra.Ring.Int.Defs
import NetSynthesis.Proofs.LabelledGraph
import NetSynthesis.Proofs.SearchedLists
import NetSynthesis.Proofs.WellFormedNet

/-! Nets whose transitions have different labels, so that words can be fired in one way only. A word
changes the tokens of each place by an amount that does not depend on the marking. In a bounded net
a word that can be fired again and again changes nothing and leads back to where it begins. -/
namespace NetSynthesis.Net

open LabelledGraph

variable {net : Net} {m k : Marking} {e : Event} {w : List Event} {t : Transition}

/-- Labels tell transitions apart. -/
def Labelled (net : Net) : Prop := (net.transitions.map (·.label)).Nodup

/-- Two transitions have one label and lead from a marking to the same one. -/
def Twins (net : Net) (m : Marking) (t u : Transition) : Prop :=
  t.label = u.label ∧ ∃ k, net.fire m t.id = .ok k ∧ net.fire m u.id = .ok k

/-- No two transitions are twins in a reachable marking. -/
def Twinless (net : Net) : Prop :=
  ∀ m : Marking, net.behaviour.Reaches m →
    net.transitions.Pairwise fun t u => ¬ net.Twins m t u

theorem Labelled.twinless (labelled : net.Labelled) : net.Twinless := fun _ _ =>
  (List.pairwise_map.1 labelled).imp fun differ twins => differ twins.1

/-- A label leads from a reachable marking to one marking at most. -/
def Definite (net : Net) : Prop :=
  ∀ m : Marking, net.behaviour.Reaches m → ∀ e n k,
    net.behaviour.Edge m e n → net.behaviour.Edge m e k → n = k

/-- The name of the transition with a label. -/
def transitionOf (net : Net) (e : Event) : String :=
  ((net.transitions.find? (·.label == e)).map (·.id)).getD ""

namespace Labelled

variable (labelled : net.Labelled)

include labelled

theorem transitionOf_eq (member : t ∈ net.transitions) : net.transitionOf t.label = t.id := by
  rw [transitionOf, find?_of_nodup labelled member]
  rfl

theorem edge_iff : net.behaviour.Edge m e k ↔
    e ∈ net.transitions.map (·.label) ∧ net.fire m (net.transitionOf e) = .ok k := by
  constructor
  · rintro ⟨t, member, rfl, fired⟩
    refine ⟨List.mem_map_of_mem member, ?_⟩
    rwa [labelled.transitionOf_eq member]
  · rintro ⟨known, fired⟩
    obtain ⟨t, member, rfl⟩ := List.mem_map.1 known
    rw [labelled.transitionOf_eq member] at fired
    exact ⟨t, member, rfl, fired⟩

theorem deterministic : net.behaviour.Deterministic := by
  intro m e n k first second
  have fired := (labelled.edge_iff.1 first).2
  rw [(labelled.edge_iff.1 second).2] at fired
  exact (Except.ok.inj fired).symm

theorem definite : net.Definite := fun m _ => labelled.deterministic m

end Labelled

/-! ### Tokens -/

/-- No place ever has more tokens than some number. -/
def Bounded (net : Net) : Prop :=
  ∃ most : Nat, ∀ m : Marking, net.behaviour.Reaches m → ∀ x ∈ m, x ≤ most

/-- A marking has some number of tokens for each place. -/
structure IsMarking (net : Net) (m : Marking) : Prop where
  length : m.length = net.places.length
  nonneg : ∀ x ∈ m, 0 ≤ x

/-- The tokens that an event adds to the place at a position. -/
def gain (net : Net) (i : Nat) (e : Event) : Int :=
  (net.places[i]?.map fun p => (net.weight (net.transitionOf e) p.id : Int) -
    net.weight p.id (net.transitionOf e)).getD 0

theorem fire_getElem? {id : String} (marking : net.IsMarking m) (fired : net.fire m id = .ok k)
    {i : Nat} {p : Place} (place : net.places[i]? = some p) : ∃ x, m[i]? = some x ∧
      (net.weight p.id id : Int) ≤ x ∧
        k[i]? = some (x - net.weight p.id id + net.weight id p.id) := by
  obtain ⟨enabled, rfl⟩ := (fire_eq_ok marking.length.ge).1 fired
  have inside : i < m.length := marking.length ▸ (List.getElem?_eq_some_iff.1 place).1
  have tokens : m[i]? = some m[i] := List.getElem?_eq_getElem inside
  refine ⟨m[i], tokens, ?_, ?_⟩
  · have pair : (p, m[i]) ∈ net.places.zip m :=
      List.mem_iff_getElem?.2 ⟨i, List.getElem?_zip_eq_some.2 ⟨place, tokens⟩⟩
    exact of_decide_eq_true (List.all_eq_true.1 enabled _ pair)
  · rw [after, List.getElem?_zipWith, place, tokens]

theorem IsMarking.initial (net : Net) : net.IsMarking net.initialMarking :=
  ⟨by simp [initialMarking], by simp [initialMarking]⟩

theorem IsMarking.fire {id : String} (marking : net.IsMarking m)
    (fired : net.fire m id = .ok k) : net.IsMarking k := by
  have length : k.length = net.places.length := by
    obtain ⟨_, rfl⟩ := (fire_eq_ok marking.length.ge).1 fired
    simp [after, marking.length]
  refine ⟨length, fun y member => ?_⟩
  obtain ⟨i, entry⟩ := List.mem_iff_getElem?.1 member
  have inside : i < net.places.length := length ▸ (List.getElem?_eq_some_iff.1 entry).1
  obtain ⟨x, _, enough, after⟩ :=
    fire_getElem? marking fired (List.getElem?_eq_getElem inside)
  rw [entry] at after
  have := Option.some.inj after
  omega

theorem IsMarking.path (marking : net.IsMarking m) (path : net.behaviour.Path m w k) :
    net.IsMarking k := by
  apply path.invariant (P := fun k : Marking => net.IsMarking k) marking
  rintro a _ b before ⟨t, _, _, fired⟩
  exact before.fire fired

theorem getD_of_fire (marking : net.IsMarking m) (fired : net.fire m (net.transitionOf e) = .ok k)
    (i : Nat) : k.getD i 0 = m.getD i 0 + net.gain i e := by
  rw [gain, List.getD_eq_getElem?_getD, List.getD_eq_getElem?_getD]
  cases place : net.places[i]? with
  | none =>
    have beyond := List.getElem?_eq_none_iff.1 place
    have before : m[i]? = none := List.getElem?_eq_none (marking.length.trans_le beyond)
    have behind : k[i]? = none :=
      List.getElem?_eq_none ((marking.fire fired).length.trans_le beyond)
    simp [before, behind]
  | some p =>
    obtain ⟨x, before, _, behind⟩ := fire_getElem? marking fired place
    rw [before, behind]
    simp only [Option.map_some, Option.getD_some]
    omega

/-- What a word adds does not depend on where it is fired. -/
theorem Labelled.path_gain (labelled : net.Labelled) (marking : net.IsMarking m)
    (path : net.behaviour.Path m w k) (i : Nat) :
    k.getD i 0 = m.getD i 0 + (w.map (net.gain i)).sum := by
  have general {w : List Event} {k : net.behaviour.Node} (path : net.behaviour.Path m w k) :
      List.getD k i 0 = m.getD i 0 + (w.map (net.gain i)).sum := by
    induction path with
    | nil => simp
    | @snoc n k w e path edge ih =>
      have before : net.IsMarking n := marking.path path
      have step := getD_of_fire before (labelled.edge_iff.1 edge).2 i
      rw [step, ih, List.map_append, List.sum_append]
      simp [Int.add_assoc]
  exact general path

/-- What can be added any number of times between two bounds is nothing. -/
theorem eq_zero_of_multiples (x most : Int) {d : Int}
    (range : ∀ n : Nat, 0 ≤ x + n * d ∧ x + n * d ≤ most) : d = 0 := by
  rcases Int.lt_trichotomy d 0 with less | zero | more
  · have low := (range (x.toNat + 1)).1
    have steps : ((x.toNat + 1 : Nat) : Int) * d ≤ (x.toNat + 1 : Nat) * (-1) :=
      Int.mul_le_mul_of_nonneg_left (by omega) (by omega)
    omega
  · exact zero
  · have first := (range 0).1
    have high := (range (most.toNat + 1)).2
    have steps : ((most.toNat + 1 : Nat) : Int) * 1 ≤ (most.toNat + 1 : Nat) * d :=
      Int.mul_le_mul_of_nonneg_left (by omega) (by omega)
    omega

/-- A word that a bounded net can fire again and again leads back to where it begins. -/
theorem Labelled.eq_of_repeated (labelled : net.Labelled) (bounded : net.Bounded)
    (reached : net.behaviour.Reaches m) (path : net.behaviour.Path m w k)
    (again : ∀ n, ∃ l : Marking, net.behaviour.Path m (List.replicate n w).flatten l) :
    k = m := by
  obtain ⟨most, bounded⟩ := bounded
  obtain ⟨v, way⟩ := reached
  have marking : net.IsMarking m := (IsMarking.initial net).path way
  have kept (i : Nat) : (w.map (net.gain i)).sum = 0 := by
    apply eq_zero_of_multiples (m.getD i 0) most
    intro n
    obtain ⟨l, round⟩ := again n
    have gained : l.getD i 0 = m.getD i 0 + n * (w.map (net.gain i)).sum := by
      rw [labelled.path_gain marking round i]
      simp [List.map_flatten, List.sum_flatten]
    rw [← gained, List.getD_eq_getElem?_getD]
    cases entry : l[i]? with
    | none => simp
    | some x =>
      have member : x ∈ l := List.mem_of_getElem? entry
      exact ⟨(marking.path round).nonneg x member, bounded l ⟨_, way.append round⟩ x member⟩
  refine List.ext_getElem ?_ fun i inside inside' => ?_
  · rw [(marking.path path).length, marking.length]
  · have gained := labelled.path_gain marking path i
    rw [kept i, Int.add_zero] at gained
    simpa [inside, inside'] using gained

end NetSynthesis.Net
