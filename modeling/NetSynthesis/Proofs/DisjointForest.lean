import Mathlib.Data.List.Induction
import NetSynthesis.DisjointSets
import NetSynthesis.Proofs.ListedClasses

/-! Joined classes. In a forest every element climbs to a root in fewer steps than there are
members, so the roots that are computed are roots. A query shortens paths and leaves all roots as
they are, a join gives the class of its second element the root of the first, and the classes
listed are the members with one root. -/
namespace NetSynthesis.DisjointSets

variable {α : Type} [DecidableEq α] {d d' : DisjointSets α}

/-- From an element it is a number of steps up to a root. -/
inductive Climbs (d : DisjointSets α) : Nat → α → α → Prop
  | root {r : α} : d.parent r = r → Climbs d 0 r r
  | step {n : Nat} {a r : α} : d.parent a ≠ a → Climbs d n (d.parent a) r → Climbs d (n + 1) a r

structure Forest (d : DisjointSets α) : Prop where
  nodup : d.members.Nodup
  closed : ∀ a ∈ d.members, d.parent a ∈ d.members
  rooted : ∀ a, ∃ n r, d.Climbs n a r

theorem Climbs.unique {m n : Nat} {a r s : α} (first : d.Climbs m a r) (second : d.Climbs n a s) :
    m = n ∧ r = s := by
  induction first generalizing n with
  | root top =>
    cases second with
    | root _ => exact ⟨rfl, rfl⟩
    | step moves _ => exact absurd top moves
  | step moves _ ih =>
    cases second with
    | root top => exact absurd top moves
    | step _ rest =>
      obtain ⟨rfl, rfl⟩ := ih rest
      exact ⟨rfl, rfl⟩

theorem Climbs.parent_root {n : Nat} {a r : α} (climbs : d.Climbs n a r) : d.parent r = r := by
  induction climbs with
  | root top => exact top
  | step _ _ ih => exact ih

theorem mem_members_of_parent_ne {a : α} (moves : d.parent a ≠ a) : a ∈ d.members := by
  by_contra absent
  have unknown : d.parents.lookup a = none := by
    rw [List.lookup_eq_none_iff]
    intro p member
    exact bne_iff_ne.2 fun same => absent (same ▸ List.mem_map_of_mem member)
  simp [parent, unknown] at moves

theorem Forest.mem_root (forest : d.Forest) {n : Nat} {a r : α} (climbs : d.Climbs n a r)
    (member : a ∈ d.members) : r ∈ d.members := by
  induction climbs with
  | root _ => exact member
  | step _ _ ih => exact ih (forest.closed _ member)

theorem Forest.trail (forest : d.Forest) {n : Nat} {a r : α} (climbs : d.Climbs n a r)
    (member : a ∈ d.members) : ∃ xs : List α, xs.Nodup ∧ xs.length = n + 1 ∧
      ∀ x ∈ xs, x ∈ d.members ∧ ∃ m ≤ n, d.Climbs m x r := by
  induction climbs with
  | root top => exact ⟨[_], by simp, rfl, by simpa using ⟨member, .root top⟩⟩
  | @step n a r moves rest ih =>
    obtain ⟨xs, nodup, length, inside⟩ := ih (forest.closed _ member)
    have whole : d.Climbs (n + 1) a r := .step moves rest
    refine ⟨a :: xs, List.nodup_cons.2 ⟨fun again => ?_, nodup⟩, by simp [length], ?_⟩
    · obtain ⟨_, m, low, climbs⟩ := inside a again
      have := (whole.unique climbs).1
      omega
    · intro x cases
      rcases List.mem_cons.1 cases with rfl | later
      · exact ⟨member, n + 1, Nat.le_refl _, whole⟩
      · obtain ⟨old, m, low, climbs⟩ := inside x later
        exact ⟨old, m, by omega, climbs⟩

theorem ancestor_of_climbs {m n : Nat} {a r : α} (climbs : d.Climbs m a r) (enough : m ≤ n) :
    d.ancestor n a = r := by
  induction climbs generalizing n with
  | root top =>
    cases n with
    | zero => rfl
    | succ n => simp [ancestor, top]
  | step moves _ ih =>
    obtain ⟨n, rfl⟩ : ∃ k, n = k + 1 := ⟨n - 1, by omega⟩
    simp only [ancestor, if_neg moves]
    exact ih (by omega)

theorem Forest.steps_le (forest : d.Forest) {n : Nat} {a r : α} (climbs : d.Climbs n a r) :
    n ≤ d.parents.length := by
  cases climbs with
  | root _ => exact Nat.zero_le _
  | step moves rest =>
    obtain ⟨xs, nodup, length, inside⟩ :=
      forest.trail (.step moves rest) (mem_members_of_parent_ne moves)
    have few := (nodup.subperm fun x member => (inside x member).1).length_le
    rw [length, members, List.length_map] at few
    omega

theorem Forest.root_eq (forest : d.Forest) {n : Nat} {a r : α} (climbs : d.Climbs n a r) :
    d.root a = r :=
  ancestor_of_climbs climbs (forest.steps_le climbs)

theorem Forest.climbs_root (forest : d.Forest) (a : α) : ∃ n, d.Climbs n a (d.root a) := by
  obtain ⟨n, r, climbs⟩ := forest.rooted a
  exact ⟨n, by rwa [forest.root_eq climbs]⟩

/-! ### Queries -/

/-- The second forest has the members and the roots of the first. -/
structure SameClasses (d d' : DisjointSets α) : Prop where
  forest : d'.Forest
  members_eq : d'.members = d.members
  root_eq : ∀ a, d'.root a = d.root a

theorem Forest.refl (forest : d.Forest) : SameClasses d d := ⟨forest, rfl, fun _ => rfl⟩

theorem SameClasses.trans {d'' : DisjointSets α} (first : SameClasses d d')
    (second : SameClasses d' d'') : SameClasses d d'' :=
  ⟨second.forest, second.members_eq.trans first.members_eq,
    fun a => (second.root_eq a).trans (first.root_eq a)⟩

theorem SameClasses.of_climbs (forest : d.Forest) (names : d'.members = d.members)
    (closed : ∀ a ∈ d'.members, d'.parent a ∈ d'.members)
    (climbs : ∀ n a r, d.Climbs n a r → ∃ m, d'.Climbs m a r) : SameClasses d d' := by
  have forest' : d'.Forest := by
    refine ⟨by rw [names]; exact forest.nodup, closed, fun a => ?_⟩
    obtain ⟨n, r, up⟩ := forest.rooted a
    obtain ⟨m, up'⟩ := climbs n a r up
    exact ⟨m, r, up'⟩
  refine ⟨forest', names, fun a => ?_⟩
  obtain ⟨n, up⟩ := forest.climbs_root a
  obtain ⟨m, up'⟩ := climbs n a _ up
  exact forest'.root_eq up'

@[simp] theorem members_setParent (a p : α) : (d.setParent a p).members = d.members := by
  simp only [members, setParent, List.map_map]
  exact List.map_congr_left fun q _ => by simp only [Function.comp_apply]; split <;> rfl

theorem parent_setParent (a p b : α) : (d.setParent a p).parent b =
    if b = a ∧ a ∈ d.members then p else d.parent b := by
  have general (ps : List (α × α)) : (setParent ⟨ps⟩ a p).parents.lookup b =
      if b = a ∧ a ∈ ps.map (·.1) then some p else ps.lookup b := by
    rw [setParent]
    induction ps with
    | nil => simp
    | cons q ps ih =>
      obtain ⟨c, q⟩ := q
      by_cases first : b = c
      · subst first
        by_cases same : b = a
        · simp [same]
        · simp [same]
      · have other : (b == c) = false := beq_false_of_ne first
        by_cases same : c = a
        · have differ : b ≠ a := fun eq => first (eq.trans same.symm)
          simp [same, differ, List.lookup_cons, beq_false_of_ne differ]
          rw [ih, if_neg fun both => differ both.1]
        · simp only [List.map_cons, same, if_false, List.lookup_cons, other, ih, List.mem_cons]
          by_cases eq : b = a
          · subst eq; simp only [true_and, first, false_or]
          · simp [eq]
  rw [parent, parent, general, members]
  split <;> rfl

/-- Hanging an element below its root changes no root. -/
theorem Forest.setParent_root (forest : d.Forest) {n : Nat} {a r : α} (climbs : d.Climbs n a r)
    (below : a ≠ r) : SameClasses d (d.setParent a r) := by
  have moves : d.parent a ≠ a := by
    cases climbs with
    | root _ => exact absurd rfl below
    | step moves _ => exact moves
  have member := mem_members_of_parent_ne moves
  have parent' : ∀ b, (d.setParent a r).parent b = if b = a then r else d.parent b := by
    intro b; rw [parent_setParent]; simp [member]
  have top : (d.setParent a r).parent r = r := by
    rw [parent', if_neg (Ne.symm below), climbs.parent_root]
  refine .of_climbs forest (members_setParent ..) (fun b inside => ?_) fun m b s up => ?_
  · rw [members_setParent] at inside ⊢
    rw [parent']
    split
    · exact forest.mem_root climbs member
    · exact forest.closed b inside
  · induction up with
    | @root s fixed =>
      have other : s ≠ a := fun same => moves (same ▸ fixed)
      exact ⟨0, .root (by rw [parent', if_neg other, fixed])⟩
    | @step m b s ahead rest ih =>
      by_cases same : b = a
      · subst same
        obtain rfl := (climbs.unique (.step ahead rest)).2
        exact ⟨1, .step (by rw [parent', if_pos rfl]; exact Ne.symm below)
          (by rw [parent', if_pos rfl]; exact .root top)⟩
      · obtain ⟨k, up⟩ := ih
        exact ⟨k + 1, .step (by rw [parent', if_neg same]; exact ahead)
          (by rw [parent', if_neg same]; exact up)⟩

theorem Forest.compress (forest : d.Forest) (steps : Nat) {n : Nat} {a r : α}
    (climbs : d.Climbs n a r) : SameClasses d (d.compress r steps a) := by
  induction steps generalizing d n a with
  | zero => exact forest.refl
  | succ steps ih =>
    rw [DisjointSets.compress]
    split
    · exact forest.refl
    · rename_i below
      have hung := forest.setParent_root climbs below
      have above : ∃ m, d.Climbs m (d.parent a) r := by
        cases climbs with
        | root _ => exact absurd rfl below
        | step _ rest => exact ⟨_, rest⟩
      obtain ⟨m, above⟩ := above
      obtain ⟨k, up⟩ := hung.forest.climbs_root (d.parent a)
      rw [hung.root_eq, forest.root_eq above] at up
      exact hung.trans (ih hung.forest up)

theorem Forest.find (forest : d.Forest) (a : α) : SameClasses d (d.find a).2 := by
  obtain ⟨n, climbs⟩ := forest.climbs_root a
  exact forest.compress _ climbs

theorem Forest.findAll (forest : d.Forest) (xs : List α) : SameClasses d (d.findAll xs).2 ∧
    (d.findAll xs).1 = xs.map fun a => (a, d.root a) := by
  induction xs generalizing d with
  | nil => exact ⟨forest.refl, rfl⟩
  | cons a xs ih =>
    have first := forest.find a
    obtain ⟨rest, found⟩ := ih first.forest
    refine ⟨first.trans rest, ?_⟩
    rw [DisjointSets.findAll]
    simp only [found, List.map_cons, first.root_eq]
    rfl

theorem Forest.classOf (forest : d.Forest) (a : α) : SameClasses d (d.classOf a).2 := by
  rw [DisjointSets.classOf]
  split
  · have first := forest.find a
    exact first.trans (first.forest.findAll _).1
  · exact forest.refl

/-! ### Joins -/

theorem Forest.empty : ({} : DisjointSets α).Forest :=
  ⟨by simp [members], by simp [members], fun a => ⟨0, a, .root rfl⟩⟩

theorem parent_insert (a b : α) : (d.insert a).parent b = d.parent b := by
  rw [insert]
  split
  · rfl
  · rename_i absent
    rw [parent, parent, List.lookup_append]
    cases known : d.parents.lookup b with
    | some p => rfl
    | none => by_cases same : b = a <;> simp [same]

theorem mem_members_insert {a b : α} : b ∈ (d.insert a).members ↔ b = a ∨ b ∈ d.members := by
  rw [insert]
  split
  · rename_i known
    have known : a ∈ d.members := by simpa using known
    exact ⟨.inr, fun cases => cases.elim (fun same => same ▸ known) id⟩
  · simp [members, or_comm]

theorem Forest.insert (forest : d.Forest) (a : α) :
    (d.insert a).Forest ∧ ∀ b, (d.insert a).root b = d.root b := by
  have climbs : ∀ n b r, d.Climbs n b r → (d.insert a).Climbs n b r := by
    intro n b r up
    induction up with
    | root top => exact .root (by rw [parent_insert, top])
    | step moves _ ih => exact .step (by rwa [parent_insert]) (by rwa [parent_insert])
  have forest' : (d.insert a).Forest := by
    refine ⟨?_, fun b member => ?_, fun b => ?_⟩
    · rw [DisjointSets.insert]
      split
      · exact forest.nodup
      · rename_i absent
        simp only [members, List.map_append, List.map_cons, List.map_nil]
        exact List.nodup_append.2 ⟨forest.nodup, by simp, by
          rintro x inside y single rfl
          simp_all [members]⟩
    · rw [parent_insert, mem_members_insert]
      by_cases moves : d.parent b = b
      · rw [moves]; exact mem_members_insert.1 member
      · exact .inr (forest.closed b (mem_members_of_parent_ne moves))
    · obtain ⟨n, r, up⟩ := forest.rooted b
      exact ⟨n, r, climbs n b r up⟩
  refine ⟨forest', fun b => ?_⟩
  obtain ⟨n, up⟩ := forest.climbs_root b
  exact forest'.root_eq (climbs n b _ up)

theorem Forest.setParent (forest : d.Forest) {r s : α} (top : d.parent r = r)
    (other : d.parent s = s) (mr : r ∈ d.members) (ms : s ∈ d.members) :
    (d.setParent s r).Forest ∧
      ∀ a, (d.setParent s r).root a = if d.root a = s then r else d.root a := by
  have parent' : ∀ b, (d.setParent s r).parent b = if b = s then r else d.parent b := by
    intro b; rw [parent_setParent]; simp [ms]
  have top' : (d.setParent s r).parent r = r := by rw [parent']; split <;> simp [top]
  have climbs : ∀ n a t, d.Climbs n a t →
      ∃ m, (d.setParent s r).Climbs m a (if t = s then r else t) := by
    intro n a t up
    induction up with
    | @root t fixed =>
      by_cases same : t = s
      · subst same
        rw [if_pos rfl]
        by_cases equal : r = t
        · subst equal; exact ⟨0, .root top'⟩
        · exact ⟨1, .step (by rw [parent', if_pos rfl]; exact equal)
            (by rw [parent', if_pos rfl]; exact .root top')⟩
      · rw [if_neg same]
        exact ⟨0, .root (by rw [parent', if_neg same, fixed])⟩
    | @step n a t moves _ ih =>
      have below : a ≠ s := fun same => moves (same ▸ other)
      obtain ⟨m, up⟩ := ih
      exact ⟨m + 1, .step (by rwa [parent', if_neg below]) (by rwa [parent', if_neg below])⟩
  have forest' : (d.setParent s r).Forest := by
    refine ⟨by rw [members_setParent]; exact forest.nodup, fun b member => ?_, fun b => ?_⟩
    · rw [members_setParent] at member ⊢
      rw [parent']
      split
      · exact mr
      · exact forest.closed b member
    · obtain ⟨n, t, up⟩ := forest.rooted b
      obtain ⟨m, up'⟩ := climbs n b t up
      exact ⟨m, _, up'⟩
  refine ⟨forest', fun a => ?_⟩
  obtain ⟨n, up⟩ := forest.climbs_root a
  obtain ⟨m, up'⟩ := climbs n a _ up
  exact forest'.root_eq up'

/-- A join takes up both elements, hangs the root of the second below that of the first and asks for
the class of the first. -/
theorem Forest.hang (forest : d.Forest) (a b : α) : ∃ e : DisjointSets α, d.join a b = e.classOf a ∧
    e.Forest ∧ e.members = ((d.insert a).insert b).members ∧
    ∀ x, e.root x = if d.root x = d.root b then d.root a else d.root x := by
  obtain ⟨grownA, rootsA⟩ := forest.insert a
  obtain ⟨grown, rootsB⟩ := grownA.insert b
  have findA := grown.find a
  have findB := findA.forest.find b
  have both := findA.trans findB
  rw [DisjointSets.join]
  simp only
  generalize eq : ((((d.insert a).insert b).find a).2.find b).2 = e at both
  have rootA : (((d.insert a).insert b).find a).1 = d.root a := (rootsB a).trans (rootsA a)
  have rootB : ((((d.insert a).insert b).find a).2.find b).1 = d.root b :=
    (findA.root_eq b).trans ((rootsB b).trans (rootsA b))
  have roots : ∀ x, e.root x = d.root x := fun x =>
    (both.root_eq x).trans ((rootsB x).trans (rootsA x))
  have isRoot : ∀ x ∈ ((d.insert a).insert b).members,
      e.parent (d.root x) = d.root x ∧ d.root x ∈ e.members := by
    intro x member
    obtain ⟨n, up⟩ := both.forest.climbs_root x
    rw [roots] at up
    exact ⟨up.parent_root, both.forest.mem_root up (both.members_eq ▸ member)⟩
  obtain ⟨topA, memA⟩ := isRoot a (mem_members_insert.2 (.inr (mem_members_insert.2 (.inl rfl))))
  obtain ⟨topB, memB⟩ := isRoot b (mem_members_insert.2 (.inl rfl))
  obtain ⟨hung, moved⟩ := both.forest.setParent topA topB memA memB
  rw [rootA, rootB]
  refine ⟨_, rfl, hung, (members_setParent ..).trans both.members_eq, fun x => ?_⟩
  rw [moved, roots]

theorem Forest.join (forest : d.Forest) (a b : α) : (d.join a b).2.Forest ∧
    (∀ x, (d.join a b).2.root x = if d.root x = d.root b then d.root a else d.root x) ∧
    ∀ x, x ∈ (d.join a b).2.members ↔ x = a ∨ x = b ∨ x ∈ d.members := by
  obtain ⟨e, joined, hung, members, moved⟩ := forest.hang a b
  have last := hung.classOf a
  rw [joined]
  refine ⟨last.forest, fun x => (last.root_eq x).trans (moved x), fun x => ?_⟩
  rw [last.members_eq, members, mem_members_insert, mem_members_insert]
  exact or_left_comm

/-! ### Classes -/

def groupsBy (xs : List α) (root : α → α) : List (α × List α) :=
  (xs.map root).eraseDups.map fun r => (r, xs.filter (root · = r))

theorem foldl_addToGroup (xs : List α) (root : α → α) :
    (xs.map fun a => (a, root a)).foldl addToGroup [] = groupsBy xs root := by
  induction xs using List.reverseRecOn with
  | nil => rfl
  | append_singleton xs a ih =>
    rw [List.map_append, List.foldl_append, ih]
    simp only [List.map_cons, List.map_nil, List.foldl_cons, List.foldl_nil]
    unfold addToGroup groupsBy
    rw [List.map_append, List.map_cons, List.map_nil, eraseDups_concat]
    by_cases known : root a ∈ xs.map root
    · have inside : root a ∈ (xs.map root).eraseDups := List.mem_eraseDups.2 known
      rw [if_pos (by simpa using inside), if_pos known, List.map_map]
      apply List.map_congr_left
      intro r _
      by_cases same : r = root a
      · simp [same, List.filter_append]
      · simp [same, Ne.symm same, List.filter_append]
    · have outside : root a ∉ (xs.map root).eraseDups := fun h => known (List.mem_eraseDups.1 h)
      rw [if_neg (by simpa using outside), if_neg known, List.map_append]
      congr 1
      · apply List.map_congr_left
        intro r inside
        have differ : root a ≠ r := fun same => outside (same ▸ inside)
        simp [List.filter_append, differ]
      · have none : xs.filter (root · = root a) = [] := by
          simpa [List.filter_eq_nil_iff] using known
        simp [List.filter_append, none]

theorem Forest.classes_eq (forest : d.Forest) :
    d.classes.1 = keyedGroups d.root d.members := by
  obtain ⟨_, found⟩ := forest.findAll d.members
  have grouped : d.classes.1 =
      ((groupsBy d.members d.root).map (·.2)).filter (1 < ·.length) := by
    rw [← foldl_addToGroup, ← found]
    rfl
  rw [grouped, groupsBy, List.map_map]
  rfl

theorem Forest.isClasses (forest : d.Forest) : IsClasses d.classes.1 fun a b =>
    a ∈ d.members ∧ b ∈ d.members ∧ d.root a = d.root b := by
  rw [forest.classes_eq]
  exact isClasses_keyedGroups forest.nodup

end NetSynthesis.DisjointSets
