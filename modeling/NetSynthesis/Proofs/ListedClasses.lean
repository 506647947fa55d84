import Mathlib.Data.List.Induction
import Mathlib.Data.List.Nodup
import Mathlib.Data.List.Perm.Subperm
import Mathlib.Logic.Relation
import NetSynthesis.Proofs.SearchedLists

/-! Classes of relations, listed as groups of two or more elements. Elements of a list that have the
same key are such classes, and groups that are split by a key, part by part, remain the classes of
what they stood for together with the key. -/
namespace NetSynthesis

open Relation

/-- The groups are the classes of two or more elements of a relation, each listed once. -/
structure IsClasses {α : Type} (groups : List (List α)) (related : α → α → Prop) : Prop where
  nodup : ∀ g ∈ groups, g.Nodup
  large : ∀ g ∈ groups, 1 < g.length
  mem_iff : ∀ g ∈ groups, ∀ a ∈ g, ∀ b, b ∈ g ↔ related a b
  exists_mem : ∀ a b, a ≠ b → related a b → ∃ g ∈ groups, a ∈ g
  disjoint : groups.Pairwise List.Disjoint

/-- The same groups, in whatever order the groups and their elements are. -/
def SameGroups {α : Type} (groups others : List (List α)) : Prop :=
  ∀ xs : Set α, (∃ g ∈ groups, {a | a ∈ g} = xs) ↔ ∃ g ∈ others, {a | a ∈ g} = xs

namespace IsClasses

variable {α : Type} {groups others : List (List α)} {related : α → α → Prop}

theorem exists_mem_group (classes : IsClasses groups related) {g : List α} (member : g ∈ groups) :
    ∃ a, a ∈ g :=
  List.exists_mem_of_length_pos (Nat.lt_trans Nat.zero_lt_one (classes.large g member))

/-- Every element of a group is related to another. -/
theorem exists_ne (classes : IsClasses groups related) {g : List α} (member : g ∈ groups) {a : α}
    (inside : a ∈ g) : ∃ b, a ≠ b ∧ related a b := by
  by_contra alone
  have single : ∀ b ∈ g, b = a := by
    intro b other
    by_contra differ
    exact alone ⟨b, Ne.symm differ, (classes.mem_iff g member a inside b).1 other⟩
  have few : g.Subperm [a] := (classes.nodup g member).subperm fun b other =>
    List.mem_singleton.2 (single b other)
  have many := classes.large g member
  have one : g.length ≤ 1 := few.length_le
  omega

section Coarser

variable {coarser : α → α → Prop} (classes : IsClasses groups related)
  (again : IsClasses others coarser) (finer : ∀ a b, related a b → coarser a b) {g : List α}
  (member : g ∈ groups)

include classes again finer member

theorem exists_group : ∃ a ∈ g, ∃ h ∈ others, ∀ b, b ∈ h ↔ coarser a b := by
  obtain ⟨a, inside⟩ := classes.exists_mem_group member
  obtain ⟨b, differ, both⟩ := classes.exists_ne member inside
  obtain ⟨h, other, at_h⟩ := again.exists_mem a b differ (finer a b both)
  exact ⟨a, inside, h, other, again.mem_iff h other a at_h⟩

theorem exists_superset : ∃ h ∈ others, g ⊆ h := by
  obtain ⟨a, inside, h, other, same⟩ := classes.exists_group again finer member
  refine ⟨h, other, fun b here => (same b).2 (finer a b ?_)⟩
  exact (classes.mem_iff g member a inside b).1 here

end Coarser

theorem subset_groups (classes : IsClasses groups related) (again : IsClasses others related)
    {xs : Set α} (listed : ∃ g ∈ groups, {a | a ∈ g} = xs) : ∃ g ∈ others, {a | a ∈ g} = xs := by
  obtain ⟨g, member, rfl⟩ := listed
  obtain ⟨a, inside, h, other, same⟩ := classes.exists_group again (fun _ _ => id) member
  exact ⟨h, other, Set.ext fun x => (same x).trans (classes.mem_iff g member a inside x).symm⟩

/-- A relation has only one list of classes, apart from the order. -/
theorem sameGroups (classes : IsClasses groups related) (again : IsClasses others related) :
    SameGroups groups others :=
  fun _ => ⟨classes.subset_groups again, again.subset_groups classes⟩

theorem congr {related' : α → α → Prop} (classes : IsClasses groups related)
    (same : ∀ a b, (∃ g ∈ groups, a ∈ g) ∨ a ≠ b → (related a b ↔ related' a b)) :
    IsClasses groups related' := by
  refine ⟨classes.nodup, classes.large, fun g member a inside b => ?_, fun a b differ both => ?_,
    classes.disjoint⟩
  · rw [classes.mem_iff g member a inside b, same a b (.inl ⟨g, member, inside⟩)]
  · exact classes.exists_mem a b differ ((same a b (.inr differ)).2 both)

/-- Where a relation is symmetric and transitive, its classes are those it generates. -/
theorem of_eqvGen (classes : IsClasses groups (EqvGen related))
    (symm : ∀ a b, related a b → related b a)
    (trans : ∀ a b c, related a b → related b c → related a c) : IsClasses groups related := by
  have closed (a b : α) (generated : EqvGen related a b) : a = b ∨ related a b := by
    induction generated with
    | rel a b both => exact .inr both
    | refl a => exact .inl rfl
    | symm a b _ ih => exact ih.imp Eq.symm (symm a b)
    | trans a b c _ _ first second =>
      rcases first with rfl | left
      · exact second
      · rcases second with rfl | right
        · exact .inr left
        · exact .inr (trans a b c left right)
  refine classes.congr fun a b cases => ⟨fun generated => ?_, .rel a b⟩
  rcases closed a b generated with rfl | both
  · rcases cases with ⟨g, member, inside⟩ | differ
    · obtain ⟨b, differ, other⟩ := classes.exists_ne member inside
      have both := (closed a b other).resolve_left differ
      exact trans a b a both (symm a b both)
    · exact absurd rfl differ
  · exact both

end IsClasses

/-! ### Elements with the same key -/

theorem eraseDups_concat {α : Type} [DecidableEq α] (xs : List α) (a : α) :
    (xs ++ [a]).eraseDups = if a ∈ xs then xs.eraseDups else xs.eraseDups ++ [a] := by
  rw [List.eraseDups_append, List.removeAll]
  by_cases known : a ∈ xs
  · rw [if_pos known, List.filter_cons_of_neg (by simpa using known)]
    exact List.append_nil _
  · rw [if_neg known, List.filter_cons_of_pos (by simpa using known)]
    rfl

theorem pairwise_eraseDups {α : Type} [DecidableEq α] (xs : List α) :
    xs.eraseDups.Pairwise fun a b => xs.idxOf a < xs.idxOf b := by
  induction xs using List.reverseRecOn with
  | nil => simp
  | append_singleton xs a ih =>
    have before : xs.eraseDups.Pairwise fun b c => (xs ++ [a]).idxOf b < (xs ++ [a]).idxOf c := by
      refine ih.imp_of_mem fun first second less => ?_
      rwa [List.idxOf_append_of_mem (List.mem_eraseDups.1 first),
        List.idxOf_append_of_mem (List.mem_eraseDups.1 second)]
    rw [eraseDups_concat]
    split
    · exact before
    · rename_i unknown
      refine List.pairwise_append.2 ⟨before, by simp, fun b inside c last => ?_⟩
      obtain rfl : c = a := by simpa using last
      have old := List.mem_eraseDups.1 inside
      rw [List.idxOf_append_of_mem old, List.idxOf_append_of_notMem unknown]
      exact Nat.lt_add_right _ (List.idxOf_lt_length_of_mem old)

theorem nodup_eraseDups {α : Type} [DecidableEq α] (xs : List α) : xs.eraseDups.Nodup := by
  refine (pairwise_eraseDups xs).imp ?_
  rintro a _ less rfl
  exact Nat.lt_irrefl _ less

theorem one_lt_length {α : Type} {xs : List α} {a b : α} (ma : a ∈ xs) (mb : b ∈ xs)
    (differ : a ≠ b) : 1 < xs.length := by
  have pair : [a, b].Subperm xs :=
    List.Nodup.subperm (by simp [differ]) (by simp [List.subset_def, ma, mb])
  exact pair.length_le

section Keyed

variable {α κ : Type} [DecidableEq κ]

/-- The elements with the same key, in groups of two or more. -/
def keyedGroups (key : α → κ) (xs : List α) : List (List α) :=
  ((xs.map key).eraseDups.map fun k => xs.filter (key · = k)).filter (1 < ·.length)

variable {key : α → κ} {xs : List α} {g : List α} {a b : α}

theorem mem_keyedGroups : g ∈ keyedGroups key xs ↔
    (∃ a ∈ xs, xs.filter (key · = key a) = g) ∧ 1 < g.length := by
  simp only [keyedGroups, List.mem_filter, List.mem_map, List.mem_eraseDups, decide_eq_true_eq,
    exists_exists_and_eq_and]

theorem sublist_of_mem_keyedGroups (member : g ∈ keyedGroups key xs) : g.Sublist xs := by
  obtain ⟨⟨a, _, rfl⟩, _⟩ := mem_keyedGroups.1 member
  exact List.filter_sublist

theorem mem_iff_of_keyedGroups (member : g ∈ keyedGroups key xs) (inside : a ∈ g) :
    b ∈ g ↔ a ∈ xs ∧ b ∈ xs ∧ key a = key b := by
  obtain ⟨⟨c, _, rfl⟩, _⟩ := mem_keyedGroups.1 member
  simp only [List.mem_filter, decide_eq_true_eq] at inside ⊢
  rw [inside.2]
  simp only [inside.1, true_and, eq_comm]

theorem exists_mem_keyedGroups (ma : a ∈ xs) (mb : b ∈ xs) (differ : a ≠ b)
    (same : key a = key b) : ∃ g ∈ keyedGroups key xs, a ∈ g := by
  have ha : a ∈ xs.filter (key · = key a) := by simp [ma]
  have hb : b ∈ xs.filter (key · = key a) := by simp [mb, same]
  exact ⟨_, mem_keyedGroups.2 ⟨⟨a, ma, rfl⟩, one_lt_length ha hb differ⟩, ha⟩

theorem disjoint_keyedGroups (key : α → κ) (xs : List α) :
    (keyedGroups key xs).Pairwise List.Disjoint := by
  refine List.Pairwise.filter _ (List.pairwise_map.2 ?_)
  refine List.Pairwise.imp ?_ (nodup_eraseDups (xs.map key))
  intro k l differ x left right
  simp only [List.mem_filter, decide_eq_true_eq] at left right
  exact differ (left.2.symm.trans right.2)

theorem pairwise_keyedGroups {earlier : α → α → Prop} (ordered : xs.Pairwise earlier) :
    (keyedGroups key xs).Pairwise fun g h => ∃ a ∈ g, ∀ b ∈ h, earlier a b := by
  refine List.Pairwise.filter _ (List.pairwise_map.2 ?_)
  refine (pairwise_eraseDups (xs.map key)).imp_of_mem fun {k l} known _ less => ?_
  have bound := List.idxOf_lt_length_of_mem (List.mem_eraseDups.1 known)
  have first := List.getElem_idxOf bound
  rw [List.getElem_map] at first
  rw [List.length_map] at bound
  refine ⟨xs[(xs.map key).idxOf k], by simp [first], fun b member => ?_⟩
  obtain ⟨inside, here⟩ := List.mem_filter.1 member
  obtain ⟨j, within, rfl⟩ := List.getElem_of_mem inside
  have later : (xs.map key).idxOf l ≤ j := by
    have at_j : j < (xs.map key).length := by simpa using within
    simpa [of_decide_eq_true here] using idxOf_getElem_le at_j
  exact List.pairwise_iff_getElem.1 ordered _ _ bound within (Nat.lt_of_lt_of_le less later)

theorem isClasses_keyedGroups (nodup : xs.Nodup) :
    IsClasses (keyedGroups key xs) fun a b => a ∈ xs ∧ b ∈ xs ∧ key a = key b :=
  ⟨fun _ member => (sublist_of_mem_keyedGroups member).nodup nodup,
    fun _ member => (mem_keyedGroups.1 member).2,
    fun _ member _ inside _ => mem_iff_of_keyedGroups member inside,
    fun _ _ differ ⟨ma, mb, same⟩ => exists_mem_keyedGroups ma mb differ same,
    disjoint_keyedGroups key xs⟩

/-- All elements of a list are one class. -/
theorem isClasses_whole (nodup : xs.Nodup) :
    IsClasses ([xs].filter (1 < ·.length)) fun a b => a ∈ xs ∧ b ∈ xs := by
  have whole (g : List α) (member : g ∈ [xs].filter (1 < ·.length)) : g = xs ∧ 1 < xs.length := by
    obtain ⟨single, large⟩ := List.mem_filter.1 member
    obtain rfl := List.mem_singleton.1 single
    exact ⟨rfl, by simpa using large⟩
  refine ⟨fun g member => (whole g member).1 ▸ nodup,
    fun g member => (whole g member).1 ▸ (whole g member).2, fun g member a inside b => ?_,
    fun a b differ ⟨ma, mb⟩ => ?_, List.Pairwise.filter _ (List.pairwise_singleton _ _)⟩
  · obtain ⟨rfl, _⟩ := whole g member
    exact (and_iff_right inside).symm
  · have large := one_lt_length ma mb differ
    exact ⟨xs, List.mem_filter.2 ⟨List.mem_singleton_self _, decide_eq_true large⟩, ma⟩

/-- Each class is split by a key, and what is left alone is dropped. -/
theorem IsClasses.split {blocks : List (List α)} {related : α → α → Prop}
    (classes : IsClasses blocks related) (key : α → κ) :
    IsClasses (blocks.flatMap (keyedGroups key)) fun a b => related a b ∧ key a = key b := by
  refine ⟨fun g member => ?_, fun g member => ?_, fun g member a inside b => ?_,
    fun a b differ ⟨both, same⟩ => ?_, ?_⟩
  · obtain ⟨block, listed, part⟩ := List.mem_flatMap.1 member
    exact (sublist_of_mem_keyedGroups part).nodup (classes.nodup block listed)
  · obtain ⟨block, _, part⟩ := List.mem_flatMap.1 member
    exact (mem_keyedGroups.1 part).2
  · obtain ⟨block, listed, part⟩ := List.mem_flatMap.1 member
    have here := (sublist_of_mem_keyedGroups part).subset inside
    rw [mem_iff_of_keyedGroups part inside, and_iff_right here,
      classes.mem_iff block listed a here b]
  · obtain ⟨block, listed, ma⟩ := classes.exists_mem a b differ both
    have mb := (classes.mem_iff block listed a ma b).2 both
    obtain ⟨g, part, inside⟩ := exists_mem_keyedGroups ma mb differ same
    exact ⟨g, List.mem_flatMap.2 ⟨block, listed, part⟩, inside⟩
  · refine List.pairwise_flatMap.2 ⟨fun block _ => disjoint_keyedGroups key block, ?_⟩
    refine classes.disjoint.imp fun apart g part h other x left right => ?_
    exact apart ((sublist_of_mem_keyedGroups part).subset left)
      ((sublist_of_mem_keyedGroups other).subset right)

end Keyed

end NetSynthesis
