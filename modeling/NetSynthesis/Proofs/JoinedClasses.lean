import NetSynthesis.Proofs.GeneratedClasses
import NetSynthesis.TrackedClasses

/-! Joins and queries in any order. All answers can be read off the members in their order and their
roots. Queries leave both as they are, so that later answers do not depend on them, and joins make
them those of the equivalence that the joined pairs generate. -/
namespace NetSynthesis.DisjointSets

variable {α : Type} [DecidableEq α] {d d' : DisjointSets α} {pairs : List (α × α)} {a b : α}

/-! ### Answers -/

theorem Forest.classOf_eq (forest : d.Forest) (a : α) : (d.classOf a).1 =
    if a ∈ d.members then d.members.filter (d.root · = d.root a) else [a] := by
  rw [DisjointSets.classOf]
  split
  · rename_i known
    have first := forest.find a
    obtain ⟨_, found⟩ := first.forest.findAll (d.find a).2.members
    rw [if_pos (List.contains_iff_mem.1 known)]
    change ((((d.find a).2.findAll (d.find a).2.members).1.filter (·.2 = d.root a)).map (·.1)) = _
    rw [found, first.members_eq]
    simp [List.filter_map, Function.comp_def, first.root_eq]
  · rename_i unknown
    rw [if_neg fun known => unknown (List.contains_iff_mem.2 known)]

theorem Forest.root_eq_of_not_mem (forest : d.Forest) (unknown : a ∉ d.members) :
    d.root b = d.root a ↔ b = a := by
  have top : d.parent a = a := by
    by_contra moves
    exact unknown (mem_members_of_parent_ne moves)
  have alone : d.root a = a := forest.root_eq (.root top)
  refine ⟨fun same => ?_, fun same => same ▸ rfl⟩
  obtain ⟨n, up⟩ := forest.climbs_root b
  rw [same, alone] at up
  cases up with
  | root _ => rfl
  | step moves rest =>
    have member := forest.mem_root (.step moves rest) (mem_members_of_parent_ne moves)
    exact absurd member unknown

theorem Forest.equivalent_iff (forest : d.Forest) (a b : α) :
    (d.equivalent a b).1 = true ↔ d.root a = d.root b := by
  rw [DisjointSets.equivalent]
  split
  · rename_i same
    simp [same]
  split
  · have first := forest.find a
    have second : ((d.find a).2.find b).1 = d.root b := first.root_eq b
    simp only [second, decide_eq_true_eq]
    rfl
  · rename_i differ strange
    simp only [Bool.and_eq_true, List.contains_iff_mem, not_and_or] at strange
    refine iff_of_false Bool.false_ne_true fun same => differ ?_
    rcases strange with unknown | unknown
    · exact ((forest.root_eq_of_not_mem unknown).1 same.symm).symm
    · exact (forest.root_eq_of_not_mem unknown).1 same

theorem Forest.equivalent (forest : d.Forest) (a b : α) :
    SameClasses d (d.equivalent a b).2 := by
  rw [DisjointSets.equivalent]
  split
  · exact forest.refl
  split
  · have first := forest.find a
    exact first.trans (first.forest.find b)
  · exact forest.refl

theorem Forest.classes (forest : d.Forest) : SameClasses d d.classes.2 :=
  (forest.findAll d.members).1

theorem Forest.join_eq (forest : d.Forest) (a b : α) :
    (d.join a b).1 = ((d.join a b).2.classOf a).1 := by
  obtain ⟨e, joined, hung, _⟩ := forest.hang a b
  have kept := hung.classOf a
  rw [joined, kept.forest.classOf_eq, hung.classOf_eq, kept.members_eq]
  simp only [kept.root_eq]

/-! ### Queries change nothing -/

theorem SameClasses.symm (forest : d.Forest) (same : SameClasses d d') : SameClasses d' d :=
  ⟨forest, same.members_eq.symm, fun a => (same.root_eq a).symm⟩

theorem Forest.step_query (forest : d.Forest) {q : ClassStep α} (query : q.joined? = none) :
    SameClasses d (d.step q) := by
  rw [step]
  cases q with
  | join a b => simp [ClassStep.joined?] at query
  | classOf a => rw [ask_classOf]; exact forest.classOf a
  | equivalent a b => rw [ask_equivalent]; exact forest.equivalent a b
  | classes => rw [ask_classes]; exact forest.classes
  | count => rw [ask_count]; exact forest.classes

theorem members_insert (a : α) :
    (d.insert a).members = if a ∈ d.members then d.members else d.members ++ [a] := by
  rw [insert]
  by_cases known : a ∈ d.members
  · rw [if_pos (List.contains_iff_mem.2 known), if_pos known]
  · rw [if_neg fun listed => known (List.contains_iff_mem.1 listed), if_neg known]
    simp [members]

theorem Forest.members_join (forest : d.Forest) (a b : α) :
    (d.join a b).2.members = ((d.insert a).insert b).members := by
  obtain ⟨e, joined, hung, members, _⟩ := forest.hang a b
  rw [joined, (hung.classOf a).members_eq, members]

theorem SameClasses.join (forest : d.Forest) (same : SameClasses d d') (a b : α) :
    SameClasses (d.join a b).2 (d'.join a b).2 := by
  refine ⟨(same.forest.join a b).1, ?_, fun x => ?_⟩
  · rw [forest.members_join, same.forest.members_join]
    simp only [members_insert, same.members_eq]
  · rw [(forest.join a b).2.1, (same.forest.join a b).2.1]
    simp only [same.root_eq]

theorem SameClasses.step (forest : d.Forest) (same : SameClasses d d') (x : ClassStep α) :
    SameClasses (d.step x) (d'.step x) := by
  cases query : x.joined? with
  | none =>
    have back := (forest.step_query query).symm forest
    exact (back.trans same).trans (same.forest.step_query query)
  | some p =>
    obtain rfl := ClassStep.eq_join query
    simpa only [DisjointSets.step, ask_join] using same.join forest p.1 p.2

theorem SameClasses.classOf_eq (forest : d.Forest) (same : SameClasses d d') (a : α) :
    (d'.classOf a).1 = (d.classOf a).1 := by
  rw [forest.classOf_eq, same.forest.classOf_eq, same.members_eq]
  simp only [same.root_eq]

theorem SameClasses.classes_eq (forest : d.Forest) (same : SameClasses d d') :
    d'.classes.1 = d.classes.1 := by
  rw [forest.classes_eq, same.forest.classes_eq, same.members_eq, funext same.root_eq]

theorem SameClasses.ask_eq (forest : d.Forest) (same : SameClasses d d') (x : ClassStep α) :
    (d'.ask x).1 = (d.ask x).1 := by
  cases x with
  | join a b =>
    have after := same.join forest a b
    rw [ask_join, ask_join, forest.join_eq, same.forest.join_eq,
      after.classOf_eq (forest.join a b).1]
  | classOf a => rw [ask_classOf, ask_classOf, same.classOf_eq forest]
  | equivalent a b =>
    have verdict : (d'.equivalent a b).1 = (d.equivalent a b).1 := by
      rw [Bool.eq_iff_iff, forest.equivalent_iff, same.forest.equivalent_iff, same.root_eq,
        same.root_eq]
    rw [ask_equivalent, ask_equivalent, verdict]
  | classes => rw [ask_classes, ask_classes, same.classes_eq forest]
  | count => rw [ask_count, ask_count, same.classes_eq forest]

theorem SameClasses.answers_eq (forest : d.Forest) (same : SameClasses d d')
    (steps : List (ClassStep α)) : d'.answers steps = d.answers steps := by
  induction steps generalizing d d' with
  | nil => rfl
  | cons x steps ih =>
    have after : (d.step x).Forest := by
      have self : SameClasses d d := forest.refl
      exact (self.step forest x).forest
    rw [answers, answers, same.ask_eq forest, ih after (same.step forest x)]

/-! ### Joined pairs -/

def elements (pairs : List (α × α)) : List α := pairs.flatMap fun p => [p.1, p.2]

/-- Besides what is known of joined pairs, the members are in the order in which they were joined
first. -/
structure Recorded (d : DisjointSets α) (pairs : List (α × α)) : Prop where
  joined : Joined d pairs
  members_eq : d.members = (elements pairs).eraseDups

theorem recorded_empty : Recorded ({} : DisjointSets α) [] := ⟨joined_empty, rfl⟩

theorem Joined.sameClasses (joined : Joined d pairs) (same : SameClasses d d') :
    Joined d' pairs := by
  refine ⟨same.forest, ?_, fun x y => ?_⟩
  · rw [same.members_eq]
    exact joined.mem_members
  · rw [same.root_eq, same.root_eq]
    exact joined.root_eq_iff x y

theorem members_insert_eraseDups {xs : List α} (listed : d.members = xs.eraseDups) (a : α) :
    (d.insert a).members = (xs ++ [a]).eraseDups := by
  rw [members_insert, listed, eraseDups_concat]
  simp only [List.mem_eraseDups]

theorem Recorded.join (recorded : Recorded d pairs) (a b : α) :
    Recorded (d.join a b).2 (pairs ++ [(a, b)]) := by
  refine ⟨recorded.joined.join a b, ?_⟩
  have first := members_insert_eraseDups recorded.members_eq a
  rw [recorded.joined.forest.members_join, members_insert_eraseDups first b]
  simp [elements]

theorem Recorded.step (recorded : Recorded d pairs) (x : ClassStep α) :
    Recorded (d.step x) (pairs ++ x.joined?.toList) := by
  cases query : x.joined? with
  | none =>
    have same := recorded.joined.forest.step_query query
    rw [Option.toList_none, List.append_nil]
    exact ⟨recorded.joined.sameClasses same, same.members_eq.trans recorded.members_eq⟩
  | some p =>
    obtain rfl := ClassStep.eq_join query
    simpa only [DisjointSets.step, ask_join, Option.toList_some] using recorded.join p.1 p.2

theorem Recorded.run (recorded : Recorded d pairs) (steps : List (ClassStep α)) :
    Recorded (d.run steps) (pairs ++ steps.filterMap ClassStep.joined?) := by
  induction steps generalizing d pairs with
  | nil => simpa [DisjointSets.run] using recorded
  | cons x steps ih =>
    have later := ih (recorded.step x)
    rw [List.append_assoc] at later
    cases query : x.joined? <;> simpa [DisjointSets.run, query] using later

section Recorded

variable (recorded : Recorded d pairs)

include recorded

theorem Recorded.mem_classOf (a x : α) : x ∈ (d.classOf a).1 ↔ Generated pairs a x := by
  rw [recorded.joined.forest.classOf_eq, ← recorded.joined.root_eq_iff]
  split
  · rename_i known
    rw [List.mem_filter, decide_eq_true_eq]
    refine ⟨fun both => both.2.symm, fun same => ⟨?_, same.symm⟩⟩
    rcases recorded.joined.eq_or_mem ((recorded.joined.root_eq_iff a x).1 same) with rfl | both
    · exact known
    · exact both.2
  · rename_i unknown
    rw [List.mem_singleton, eq_comm (a := d.root a)]
    exact (recorded.joined.forest.root_eq_of_not_mem unknown).symm

theorem Recorded.nodup_classOf (a : α) : (d.classOf a).1.Nodup := by
  rw [recorded.joined.forest.classOf_eq]
  split
  · exact recorded.joined.forest.nodup.filter _
  · exact List.nodup_singleton a

/-- The classes are in the order in which their first elements were joined first. -/
theorem Recorded.pairwise_classes : d.classes.1.Pairwise fun g h =>
    ∃ a ∈ g, ∀ b ∈ h, (elements pairs).idxOf a < (elements pairs).idxOf b := by
  rw [recorded.joined.forest.classes_eq]
  apply pairwise_keyedGroups
  rw [recorded.members_eq]
  exact pairwise_eraseDups (elements pairs)

end Recorded

/-- Whatever has been joined and asked, the answers are those of the least equivalence with all
pairs that were joined: two elements are equivalent if it relates them, their classes are its
classes, and all of these with two or more elements are listed in the order in which their elements
were joined first. A query makes no difference to the answers of the steps after it. -/
theorem answers_generated (steps : List (ClassStep α)) :
    let d := run {} steps
    let pairs := steps.filterMap ClassStep.joined?
    (∀ a b, (d.equivalent a b).1 = true ↔ Generated pairs a b) ∧
      (∀ a, (d.classOf a).1.Nodup ∧ ∀ x, x ∈ (d.classOf a).1 ↔ Generated pairs a x) ∧
      (∀ a b, (d.join a b).1.Nodup ∧
        ∀ x, x ∈ (d.join a b).1 ↔ Generated (pairs ++ [(a, b)]) a x) ∧
      IsClasses d.classes.1 (Generated pairs) ∧
      (d.classes.1.Pairwise fun g h =>
        ∃ a ∈ g, ∀ b ∈ h, (elements pairs).idxOf a < (elements pairs).idxOf b) ∧
      ∀ q, q.joined? = none → ∀ later, (d.step q).answers later = d.answers later := by
  intro d pairs
  have recorded : Recorded d pairs := recorded_empty.run steps
  have forest := recorded.joined.forest
  refine ⟨fun a b => ?_, fun a => ⟨recorded.nodup_classOf a, recorded.mem_classOf a⟩,
    fun a b => ?_, recorded.joined.isClasses, recorded.pairwise_classes, fun q query later => ?_⟩
  · rw [forest.equivalent_iff, recorded.joined.root_eq_iff]
  · have after := recorded.join a b
    rw [forest.join_eq]
    exact ⟨after.nodup_classOf a, after.mem_classOf a⟩
  · exact (forest.step_query query).answers_eq forest later

/-- Two classes become one, which stays where the earlier of them was. -/
example : answers {} [.join "a" "b", .join "c" "d", .classOf "d", .join "e" "f", .join "f" "b",
    .classes, .equivalent "a" "c"] = [.members ["a", "b"], .members ["c", "d"],
    .members ["c", "d"], .members ["e", "f"], .members ["a", "b", "e", "f"],
    .groups [["a", "b", "e", "f"], ["c", "d"]], .truth false] := by decide

end NetSynthesis.DisjointSets
