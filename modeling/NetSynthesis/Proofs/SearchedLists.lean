import Mathlib.Data.List.Nodup
import Mathlib.Data.List.Infix
import Mathlib.Data.Set.Card

/-! Lists that are searched: by a key that tells the elements apart, as entries of a table, for the
largest number, or position by position while new elements are put at the end. -/
namespace NetSynthesis

variable {α : Type} {xs ys : List α} {x : α}

theorem encard_of_nodup (nodup : xs.Nodup) : { x | x ∈ xs }.encard = xs.length := by
  classical
  rw [← List.coe_toFinset, Set.encard_coe_eq_coe_finsetCard, List.toFinset_card_of_nodup nodup]

theorem find?_of_nodup {key : α → String} (nodup : (xs.map key).Nodup) (member : x ∈ xs) :
    xs.find? (key · == key x) = some x := by
  cases found : xs.find? (key · == key x) with
  | none => exact absurd (beq_self_eq_true _) (List.find?_eq_none.1 found x member)
  | some y =>
    have same : key y = key x := by simpa using List.find?_some found
    rw [List.inj_on_of_nodup_map nodup (List.mem_of_find?_eq_some found) member same]

theorem mem_of_lookup {β : Type} {table : List (String × β)} {k : String} {v : β}
    (entry : table.lookup k = some v) : (k, v) ∈ table := by
  obtain ⟨before, after, split, _⟩ := List.lookup_eq_some_iff.1 entry
  rw [split]; simp

theorem lookup_eq_some_iff_mem {β : Type} {table : List (String × β)} {k : String} {v : β}
    (nodup : (table.map (·.1)).Nodup) : table.lookup k = some v ↔ (k, v) ∈ table := by
  refine ⟨mem_of_lookup, fun member => ?_⟩
  cases found : table.lookup k with
  | none => simpa using List.lookup_eq_none_iff.1 found _ member
  | some u =>
    have same := List.inj_on_of_nodup_map nodup (mem_of_lookup found) member rfl
    rw [(Prod.mk.inj same).2]

theorem lookup_map_pair {β : Type} (keys : List String) (g : String → β) (k : String) :
    (keys.map fun k => (k, g k)).lookup k = if k ∈ keys then some (g k) else none := by
  induction keys with
  | nil => simp
  | cons t keys ih =>
    by_cases same : k = t
    · simp [same]
    · simp [same, List.lookup_cons, ih, beq_false_of_ne]

theorem foldl_max_le_iff {xs : List Int} {least k : Int} :
    xs.foldl max least ≤ k ↔ least ≤ k ∧ ∀ x ∈ xs, x ≤ k := by
  induction xs generalizing least with
  | nil => simp
  | cons x xs ih => rw [List.foldl_cons, ih, max_le_iff, List.forall_mem_cons, and_assoc]

theorem idxOf_getElem_le [DecidableEq α] {i : Nat} (inside : i < xs.length) :
    xs.idxOf xs[i] ≤ i := by
  by_contra before
  have differ := List.not_of_lt_findIdx (Nat.lt_of_not_le before)
  simp at differ

theorem getElem?_of_prefix {i : Nat} (grows : xs <+: ys) (found : xs[i]? = some x) :
    ys[i]? = some x := by
  obtain ⟨inside, rfl⟩ := List.getElem?_eq_some_iff.1 found
  exact List.prefix_iff_getElem?.1 grows i inside

theorem mem_of_prefix_of_le {i j : Nat} {y : α} (grows : xs <+: ys) (nodup : ys.Nodup)
    (at_i : ys[i]? = some x) (before : i ≤ j) (at_j : ys[j]? = some y) (member : y ∈ xs) :
    x ∈ xs := by
  obtain ⟨k, at_k⟩ := List.mem_iff_getElem?.1 member
  have inside := (List.getElem?_eq_some_iff.1 at_k).1
  have found := getElem?_of_prefix grows at_k
  obtain rfl : j = k := (List.getElem?_inj (List.getElem?_eq_some_iff.1 at_j).1 nodup).1
    (at_j.trans found.symm)
  rw [List.prefix_iff_getElem?.1 grows i (by omega), Option.some.injEq] at at_i
  exact at_i ▸ List.getElem_mem _

/-- In round `k` the `k`-th element is settled, if there is one, and others may be put at the end. A
round without an element adds none, so that no element is left out by it. -/
theorem settled_succ {P : α → Prop} {k : Nat} (grows : xs <+: ys)
    (idle : xs[k]? = none → ys = xs) (before : ∀ i < k, ∀ x, xs[i]? = some x → P x)
    (now : ∀ x, xs[k]? = some x → P x) : ∀ i < k + 1, ∀ y, ys[i]? = some y → P y := by
  intro i bound y found
  have early : xs[i]? = some y := by
    cases old : xs[i]? with
    | some x => rw [← found, getElem?_of_prefix grows old]
    | none =>
      have late : xs[k]? = none :=
        List.getElem?_eq_none ((List.getElem?_eq_none_iff.1 old).trans (Nat.lt_succ_iff.1 bound))
      rw [← old, ← idle late, found]
  by_cases last : i = k
  · exact now y (last ▸ early)
  · exact before i (by omega) y early

end NetSynthesis
