import NetSynthesis.Proofs.DisjointForest

/-! Joined pairs generate an equivalence relation. Two elements have one root if and only if they
are related by the least equivalence with all pairs that were joined, and the classes listed are
those of two or more elements. -/
namespace NetSynthesis

open Relation

namespace DisjointSets

variable {α : Type} {pairs : List (α × α)} {a b : α}

/-- Related by the least equivalence that relates all pairs of a list. -/
def Generated (pairs : List (α × α)) : α → α → Prop := EqvGen fun a b => (a, b) ∈ pairs

theorem Generated.mono {others : List (α × α)} (subset : pairs ⊆ others)
    (related : Generated pairs a b) : Generated others a b :=
  EqvGen.mono (r := fun a b => (a, b) ∈ pairs) (p := fun a b => (a, b) ∈ others)
    (fun _ _ pair => subset pair) a b related

/-- An equivalence that holds of all pairs holds of all that they relate. -/
theorem Generated.induct {P : α → α → Prop} (equivalence : Equivalence P)
    (pair : ∀ a b, (a, b) ∈ pairs → P a b) (related : Generated pairs a b) : P a b := by
  exact equivalence.eqvGen_iff.1 (EqvGen.mono pair a b related)

/-- Roots that agree just where pairs relate their elements, and one pair more. -/
theorem generated_append [DecidableEq α] {root root' : α → α}
    (old : ∀ x y, root x = root y ↔ Generated pairs x y)
    (new : ∀ x, root' x = if root x = root b then root a else root x) (x y : α) :
    root' x = root' y ↔ Generated (pairs ++ [(a, b)]) x y := by
  have earlier {x y : α} (same : root x = root y) : Generated (pairs ++ [(a, b)]) x y :=
    ((old x y).1 same).mono (List.subset_append_left _ _)
  have last : Generated (pairs ++ [(a, b)]) a b := .rel _ _ (by simp)
  constructor
  · intro same
    rw [new, new] at same
    by_cases left : root x = root b <;> by_cases right : root y = root b
    · exact earlier (left.trans right.symm)
    · rw [if_pos left, if_neg right] at same
      exact .trans _ _ _ (earlier left) (.trans _ _ _ (.symm _ _ last) (earlier same))
    · rw [if_neg left, if_pos right] at same
      exact .trans _ _ _ (earlier same) (.trans _ _ _ last (.symm _ _ (earlier right)))
    · rw [if_neg left, if_neg right] at same
      exact earlier same
  · refine Generated.induct (P := fun x y => root' x = root' y)
      ⟨fun _ => rfl, Eq.symm, Eq.trans⟩ fun x y pair => ?_
    rcases List.mem_append.1 pair with before | now
    · rw [new, new, (old x y).2 (.rel _ _ before)]
    · obtain ⟨rfl, rfl⟩ := Prod.mk.inj (List.mem_singleton.1 now)
      rw [new, new, if_pos rfl, ite_self]

variable [DecidableEq α] {d : DisjointSets α}

/-- The members are the elements of the pairs, and roots are equal where the pairs say so. -/
structure Joined (d : DisjointSets α) (pairs : List (α × α)) : Prop where
  forest : d.Forest
  mem_members : ∀ x, x ∈ d.members ↔ ∃ p ∈ pairs, x = p.1 ∨ x = p.2
  root_eq_iff : ∀ x y, d.root x = d.root y ↔ Generated pairs x y

theorem joined_empty : Joined ({} : DisjointSets α) [] := by
  refine ⟨.empty, by simp [members], fun x y => ⟨fun same => ?_, ?_⟩⟩
  · obtain rfl : x = y := same
    exact .refl x
  · exact Generated.induct (P := Eq) ⟨fun _ => rfl, Eq.symm, Eq.trans⟩ (by simp)

theorem Joined.join (joined : Joined d pairs) (a b : α) :
    Joined (d.join a b).2 (pairs ++ [(a, b)]) := by
  obtain ⟨forest, roots, grown⟩ := joined.forest.join a b
  generalize (d.join a b).2 = e at forest roots grown ⊢
  refine ⟨forest, fun x => ?_, generated_append joined.root_eq_iff roots⟩
  rw [grown, joined.mem_members]
  simp only [List.mem_append, List.mem_singleton, or_and_right, exists_or, exists_eq_left]
  rw [← or_assoc]
  exact or_comm

theorem joined_ofPairs (pairs : List (α × α)) : Joined (ofPairs pairs) pairs := by
  induction pairs using List.reverseRecOn with
  | nil => exact joined_empty
  | append_singleton pairs pair ih =>
    have last : ofPairs (pairs ++ [pair]) = ((ofPairs pairs).join pair.1 pair.2).2 := by
      rw [ofPairs, List.foldl_append, List.foldl_cons, List.foldl_nil, ofPairs]
    rw [last]
    exact ih.join pair.1 pair.2

/-! ### Classes -/

theorem Joined.eq_or_mem (joined : Joined d pairs) (related : Generated pairs a b) :
    a = b ∨ a ∈ d.members ∧ b ∈ d.members := by
  refine related.induct (P := fun a b => a = b ∨ a ∈ d.members ∧ b ∈ d.members)
    ⟨fun _ => .inl rfl, fun both => both.imp Eq.symm And.symm, ?_⟩ fun a b pair => .inr ?_
  · intro a b c first second
    rcases first with rfl | ⟨left, middle⟩
    · exact second
    · rcases second with rfl | ⟨_, right⟩
      · exact .inr ⟨left, middle⟩
      · exact .inr ⟨left, right⟩
  · exact ⟨(joined.mem_members a).2 ⟨_, pair, .inl rfl⟩,
      (joined.mem_members b).2 ⟨_, pair, .inr rfl⟩⟩

/-- The classes of joined pairs are those of the equivalence that the pairs generate. -/
theorem Joined.isClasses (joined : Joined d pairs) :
    IsClasses d.classes.1 (Generated pairs) := by
  refine joined.forest.isClasses.congr fun a b cases => ?_
  rw [joined.root_eq_iff]
  refine ⟨fun both => both.2.2, fun related => ?_⟩
  have members : a ∈ d.members ∧ b ∈ d.members := by
    rcases joined.eq_or_mem related with rfl | both
    · rcases cases with ⟨g, listed, inside⟩ | differ
      · have both := (joined.forest.isClasses.mem_iff g listed a inside a).1 inside
        exact ⟨both.1, both.2.1⟩
      · exact absurd rfl differ
    · exact both
  exact ⟨members.1, members.2, related⟩

end DisjointSets

end NetSynthesis
