import Mathlib.Data.Set.Finite.Lattice
import Mathlib.Order.WellQuasiOrder
import NetSynthesis.Proofs.RaisedMarkings

/-! Ways through the markings of a net on which no marking equals or covers an earlier one. Such a
way cannot go on for ever: of infinitely many markings one is not below a later one, as numbers of
tokens are well-ordered at each place and there are finitely many places. As only finitely many
transitions go on from a marking, a net has finitely many of these ways. -/
namespace NetSynthesis.Net

open LabelledGraph MarkingGraph

variable {net : Net} {m k old : Marking} {way w : List Marking}

/-- The markings on a way from the initial one, the last first. None equals or covers an earlier
one. -/
inductive Uncovered (net : Net) : List Marking → Prop
  | start : Uncovered net [net.initialMarking]
  | step {m k : Marking} {way : List Marking} {e : Event} :
      Uncovered net (m :: way) → net.behaviour.Edge m e k →
      (∀ old ∈ m :: way, k ≠ old ∧ covers k old = false) → Uncovered net (k :: m :: way)

namespace Uncovered

theorem reaches (uncovered : Uncovered net w) : ∀ m ∈ w, net.behaviour.Reaches m := by
  induction uncovered with
  | start => exact List.forall_mem_singleton.2 net.behaviour.reaches_initial
  | step _ fires _ ih =>
    exact List.forall_mem_cons.2 ⟨(ih _ List.mem_cons_self).step fires, ih⟩

theorem isMarking (uncovered : Uncovered net w) (member : m ∈ w) : net.IsMarking m := by
  obtain ⟨v, path⟩ := uncovered.reaches m member
  exact (IsMarking.initial net).path path

theorem exists_path (uncovered : Uncovered net (m :: way)) :
    ∀ old ∈ way, ∃ v, net.behaviour.Path old v m := by
  generalize all : m :: way = w at uncovered
  induction uncovered generalizing m way with
  | start => simp_all
  | @step m _ _ e _ fires _ ih =>
    obtain ⟨rfl, rfl⟩ := List.cons.inj all
    refine List.forall_mem_cons.2 ⟨⟨[e], .snoc .nil fires⟩, fun old earlier => ?_⟩
    obtain ⟨v, path⟩ := ih rfl old earlier
    exact ⟨v ++ [e], .snoc path fires⟩

theorem low (uncovered : Uncovered net (k :: way)) :
    ∀ old ∈ way, k ≠ old ∧ covers k old = false := by
  generalize all : k :: way = w at uncovered
  cases uncovered with
  | start =>
    obtain ⟨_, rfl⟩ := List.cons.inj all
    simp
  | step _ _ low =>
    obtain ⟨rfl, rfl⟩ := List.cons.inj all
    exact low

theorem exists_edge (uncovered : Uncovered net (k :: m :: way)) :
    ∃ e, net.behaviour.Edge m e k := by
  generalize all : k :: m :: way = w at uncovered
  cases uncovered with
  | start => simp at all
  | @step _ _ _ e _ fires _ =>
    obtain ⟨rfl, rest⟩ := List.cons.inj all
    obtain ⟨rfl, rfl⟩ := List.cons.inj rest
    exact ⟨e, fires⟩

end Uncovered

/-! ### Ways end -/

/-- Of infinitely many markings, one is not above a later one in any place. -/
theorem exists_covers {f : Nat → Marking} (markings : ∀ n, net.IsMarking (f n)) :
    ∃ i j, i < j ∧ (f j = f i ∨ covers (f j) (f i) = true) := by
  let tokens (n : Nat) (p : Fin net.places.length) : Nat := ((f n).getD p 0).toNat
  obtain ⟨i, j, before, below⟩ := wellQuasiOrdered_le tokens
  refine ⟨i, j, before, ?_⟩
  rw [covers, Bool.and_eq_true, bne_iff_ne, or_iff_not_imp_left]
  refine fun differ => ⟨differ, List.all_eq_true.2 fun x member => ?_⟩
  obtain ⟨p, inside, rfl⟩ := List.mem_iff_getElem.1 member
  simp only [List.length_zip, lt_inf_iff] at inside
  have less : ((f i).getD p 0).toNat ≤ ((f j).getD p 0).toNat :=
    below ⟨p, (markings j).length ▸ inside.1⟩
  simp only [List.getD_eq_getElem?_getD, List.getElem?_eq_getElem inside.1,
    List.getElem?_eq_getElem inside.2, Option.getD_some] at less
  have nonneg := (markings j).nonneg _ (List.getElem_mem inside.1)
  simp only [List.getElem_zip, decide_eq_true_eq]
  omega

def Extends (net : Net) (longer w : List Marking) : Prop :=
  Uncovered net longer ∧ ∃ k, longer = k :: w

theorem wellFounded_extends (net : Net) : WellFounded (Extends net) := by
  refine wellFounded_iff_isEmpty_descending_chain.2 ⟨fun ⟨ways, goes⟩ => ?_⟩
  choose uncovered last longer using goes
  -- each marking stays on the ways after its own
  have kept : ∀ j i, i < j → last i ∈ ways j := by
    intro j
    induction j with
    | zero => simp
    | succ j ih =>
      intro i before
      rw [longer j]
      rcases Nat.lt_succ_iff_lt_or_eq.1 before with earlier | rfl
      · exact List.mem_cons_of_mem _ (ih i earlier)
      · exact List.mem_cons_self
  have markings (n : Nat) : net.IsMarking (last n) :=
    (uncovered n).isMarking (kept (n + 1) n n.lt_succ_self)
  obtain ⟨i, j, before, above⟩ := exists_covers markings
  obtain ⟨differ, uncovers⟩ := (longer j ▸ uncovered j).low (last i) (kept j i before)
  exact above.elim differ (by simp [uncovers])

theorem finite_successors (net : Net) (m : Marking) :
    { k : Marking | ∃ e, net.behaviour.Edge m e k }.Finite := by
  refine (net.transitions.filterMap fun t => (net.fire m t.id).toOption).finite_toSet.subset ?_
  rintro k ⟨e, t, member, _, fired⟩
  exact List.mem_filterMap.2 ⟨t, member, by rw [fired]; rfl⟩

theorem finite_extends (net : Net) (w : List Marking) : { v | Extends net v w }.Finite := by
  cases w with
  | nil =>
    refine (Set.finite_singleton [net.initialMarking]).subset ?_
    rintro v ⟨uncovered, k, rfl⟩
    cases uncovered
    rfl
  | cons m way =>
    refine ((net.finite_successors m).image fun k => k :: m :: way).subset ?_
    rintro v ⟨uncovered, k, rfl⟩
    exact ⟨k, uncovered.exists_edge, rfl⟩

open Relation in
theorem finite_uncovered (net : Net) : { w | Uncovered net w }.Finite := by
  have further (w : List Marking) :
      { v | ReflTransGen (Function.swap (Extends net)) w v }.Finite := by
    induction w using (wellFounded_extends net).induction with
    | _ w ih =>
      refine ((Set.finite_singleton w).union ((net.finite_extends w).biUnion ih)).subset ?_
      intro v goes
      rcases ReflTransGen.cases_head goes with rfl | ⟨u, first, rest⟩
      · exact .inl rfl
      · exact .inr (Set.mem_biUnion first rest)
  refine (further [net.initialMarking]).subset fun w uncovered => ?_
  induction uncovered with
  | start => exact .refl
  | step before fires low ih => exact .tail ih ⟨.step before fires low, _, rfl⟩

end NetSynthesis.Net
