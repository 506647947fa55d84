import NetSynthesis.Proofs.ChosenRegions

/-! Which regions are kept. The only solvers of problems come first, and then, problem by problem,
the first solver of what none chosen before solves. A region that is added in the second pass may
be left without a problem of its own by those added after it. -/
namespace NetSynthesis.Frame

variable {f : Frame} {b : Bool} {regions : List (Region f.size)} {p : Problem} {k : Nat}

/-- The region at a position is the only one that solves some problem. -/
def IsRequired (f : Frame) (b : Bool) (regions : List (Region f.size)) (k : Nat) : Prop :=
  ∃ p, f.IsProblem b p ∧ ∀ j, f.SolvedAt regions p j ↔ j = k

/-- No region solves the problem and comes before the one at a position, which does. -/
def FirstSolvedAt (f : Frame) (regions : List (Region f.size)) (p : Problem) (k : Nat) : Prop :=
  f.SolvedAt regions p k ∧ ∀ j, f.SolvedAt regions p j → k ≤ j

/-- Each region of the list is the only one that solves some problem. -/
def Irredundant (f : Frame) (b : Bool) (regions : List (Region f.size)) : Prop :=
  ∀ k < regions.length, f.IsRequired b regions k

theorem SolvedAt.lt_length (solved : f.SolvedAt regions p k) : k < regions.length := by
  obtain ⟨r, at_k, _⟩ := solved
  exact (List.getElem?_eq_some_iff.1 at_k).1

/-! ### Lists of solvers -/

theorem solvers_congr {q : Problem} (same : ∀ r, f.solves r q = true ↔ f.solves r p = true) :
    f.solvers regions q = f.solvers regions p := by
  simp only [solvers, Bool.eq_iff_iff.2 (same _)]

theorem pairwise_solvers (f : Frame) (regions : List (Region f.size)) (p : Problem) :
    (f.solvers regions p).Pairwise (· < ·) := by
  have positions : (regions.zipIdx.map (·.2)).Pairwise (· < ·) := by
    rw [List.zipIdx_map_snd]
    exact List.pairwise_lt_range'
  exact positions.sublist (List.filter_sublist.map _)

theorem firstSolvedAt_of_head? (first : (f.solvers regions p).head? = some k) :
    f.FirstSolvedAt regions p k := by
  obtain ⟨rest, eq⟩ := List.head?_eq_some_iff.1 first
  refine ⟨mem_solvers.1 (by simp [eq]), fun j solved => ?_⟩
  have increasing := pairwise_solvers f regions p
  rw [eq] at increasing
  rcases List.mem_cons.1 (eq ▸ mem_solvers.2 solved) with rfl | later
  · exact le_refl j
  · exact le_of_lt (List.rel_of_pairwise_cons increasing later)

theorem solvers_eq_singleton :
    f.solvers regions p = [k] ↔ ∀ j, f.SolvedAt regions p j ↔ j = k := by
  have nodup : (f.solvers regions p).Nodup := (pairwise_solvers f regions p).imp ne_of_lt
  rw [← List.perm_singleton, List.perm_ext_iff_of_nodup nodup (List.nodup_singleton k)]
  simp only [mem_solvers, List.mem_singleton]

theorem isRequired_iff :
    f.IsRequired b regions k ↔ ∃ p ∈ f.problems b, f.solvers regions p = [k] := by
  constructor
  · rintro ⟨p, problem, only⟩
    obtain ⟨q, listed, same⟩ := problem.exists_listed
    exact ⟨q, listed, (solvers_congr same).trans (solvers_eq_singleton.2 only)⟩
  · rintro ⟨p, listed, eq⟩
    have only := solvers_eq_singleton.1 eq
    obtain ⟨r, _, solves⟩ := (only k).2 rfl
    exact ⟨p, isProblem_of_solves listed solves, only⟩

theorem IsRequired.lt_length (required : f.IsRequired b regions k) : k < regions.length := by
  obtain ⟨p, _, only⟩ := required
  exact ((only k).2 rfl).lt_length

/-! ### The second pass -/

/-- What is added is, one after the other, the first of a list of solvers that has none of those
chosen before. -/
theorem exists_foldl_choose (all : List (List Nat)) (chosen : List Nat) :
    ∃ added, all.foldl choose chosen = chosen ++ added ∧
      ∀ before k after, added = before ++ k :: after →
        ∃ l ∈ all, l.head? = some k ∧ ∀ j ∈ chosen ++ before, j ∉ l := by
  induction all generalizing chosen with
  | nil => exact ⟨[], by simp, by simp⟩
  | cons l all ih =>
    rw [List.foldl_cons]
    obtain ⟨same, _⟩ | ⟨first, head, fresh, more⟩ := choose_cases chosen l
    · obtain ⟨added, eq, each⟩ := ih chosen
      refine ⟨added, by rw [same, eq], fun before k after split => ?_⟩
      obtain ⟨l', member, rest⟩ := each before k after split
      exact ⟨l', List.mem_cons_of_mem l member, rest⟩
    · -- What is added later is fresh also with respect to the first solver of this list.
      obtain ⟨added, eq, each⟩ := ih (chosen ++ [first])
      refine ⟨first :: added, by simp [more, eq], fun before k after split => ?_⟩
      rcases List.cons_eq_append_iff.1 split with ⟨rfl, now⟩ | ⟨before, rfl, later⟩
      · obtain ⟨rfl, -⟩ := List.cons.inj now
        exact ⟨l, List.mem_cons_self, head, by simpa using fresh⟩
      · obtain ⟨l', member, head, fresh⟩ := each before k after later
        exact ⟨l', List.mem_cons_of_mem l member, head, by simpa using fresh⟩

/-- Positions that are added in turn to those required: each is the first solver of a problem that
no required one and no one added before it solves. -/
def AddedInTurn (f : Frame) (b : Bool) (regions : List (Region f.size)) (added : List Nat) : Prop :=
  ∀ before k after, added = before ++ k :: after → ∃ p, f.IsProblem b p ∧
    f.FirstSolvedAt regions p k ∧ ∀ j, f.IsRequired b regions j ∨ j ∈ before →
      ¬ f.SolvedAt regions p j

theorem AddedInTurn.exists_first {added : List Nat} (inTurn : f.AddedInTurn b regions added)
    (member : k ∈ added) : ∃ p, f.IsProblem b p ∧ f.FirstSolvedAt regions p k := by
  obtain ⟨before, after, split⟩ := List.append_of_mem member
  obtain ⟨p, problem, first, _⟩ := inTurn before k after split
  exact ⟨p, problem, first⟩

theorem AddedInTurn.exists_last {before positions : List Nat}
    (inTurn : f.AddedInTurn b regions (before ++ [k]))
    (chosen : ∀ j ∈ positions, f.IsRequired b regions j ∨ j ∈ before ++ [k]) :
    ∃ p, f.IsProblem b p ∧ (∀ j, f.IsRequired b regions j → ¬ f.SolvedAt regions p j) ∧
      f.SolvedAt regions p k ∧ ∀ j ∈ positions, f.SolvedAt regions p j ↔ j = k := by
  obtain ⟨p, problem, ⟨solved, _⟩, fresh⟩ := inTurn before k [] rfl
  refine ⟨p, problem, fun j required => fresh j (.inl required), solved, fun j member => ?_⟩
  refine ⟨fun solvedAt => ?_, fun eq => eq ▸ solved⟩
  rcases chosen j member with required | new
  · exact absurd solvedAt (fresh j (.inl required))
  · rw [List.mem_append, List.mem_singleton] at new
    exact new.resolve_left fun earlier => fresh j (.inr earlier) solvedAt

theorem mem_flatten_singletons {all : List (List Nat)} :
    k ∈ (all.filter (·.length == 1)).flatten ↔ [k] ∈ all := by
  simp only [List.mem_flatten, List.mem_filter, beq_iff_eq, List.length_eq_one_iff]
  constructor
  · rintro ⟨_, ⟨member, j, rfl⟩, inside⟩
    rwa [List.mem_singleton.1 inside]
  · exact fun member => ⟨[k], ⟨member, k, rfl⟩, List.mem_singleton_self k⟩

theorem exists_addedInTurn (f : Frame) (b : Bool) (regions : List (Region f.size)) :
    ∃ added, f.AddedInTurn b regions added ∧
      ∀ k, k ∈ f.chosenPositions regions b ↔ f.IsRequired b regions k ∨ k ∈ added := by
  let all := (f.problems b).map (f.solvers regions)
  let required := (all.filter (·.length == 1)).flatten
  have mem_required (k : Nat) : k ∈ required ↔ f.IsRequired b regions k := by
    rw [mem_flatten_singletons, List.mem_map, isRequired_iff]
  obtain ⟨added, eq, each⟩ := exists_foldl_choose all required
  have inTurn : f.AddedInTurn b regions added := fun before k after split => by
    obtain ⟨l, member, head, fresh⟩ := each before k after split
    obtain ⟨p, listed, rfl⟩ := List.mem_map.1 member
    have first := firstSolvedAt_of_head? head
    obtain ⟨r, _, solves⟩ := first.1
    refine ⟨p, isProblem_of_solves listed solves, first, fun j old solved => ?_⟩
    refine fresh j ?_ (mem_solvers.2 solved)
    exact List.mem_append.2 (old.imp_left (mem_required j).2)
  refine ⟨added, inTurn, fun k => ?_⟩
  have inside : k ∈ f.chosenPositions regions b ↔ k < regions.length ∧ k ∈ required ++ added := by
    rw [← eq]
    simp [chosenPositions, required, all]
  rw [inside, List.mem_append, mem_required]
  refine and_iff_right_of_imp fun old => ?_
  rcases old with only | new
  · exact only.lt_length
  · obtain ⟨_, _, first⟩ := inTurn.exists_first new
    exact first.1.lt_length

/-! ### The regions at the chosen positions -/

theorem map_some_filterMap {α β : Type} {g : α → Option β} {xs : List α}
    (defined : ∀ x ∈ xs, (g x).isSome = true) : (xs.filterMap g).map some = xs.map g := by
  induction xs with
  | nil => rfl
  | cons x xs ih =>
    obtain ⟨head, tail⟩ := List.forall_mem_cons.1 defined
    obtain ⟨y, eq⟩ := Option.isSome_iff_exists.1 head
    rw [List.filterMap_cons_some eq, List.map_cons, List.map_cons, ih tail, eq]

theorem filterMap_range_getElem? {α : Type} (xs : List α) :
    (List.range xs.length).filterMap (xs[·]?) = xs := by
  refine List.map_injective_iff.2 (Option.some_injective α) ?_
  rw [map_some_filterMap (by simp)]
  exact List.ext_getElem (by simp) (by simp)

theorem chosenPositions_sublist (f : Frame) (regions : List (Region f.size)) (b : Bool) :
    (f.chosenPositions regions b).Sublist (List.range regions.length) :=
  List.filter_sublist

theorem nodup_chosenPositions : (f.chosenPositions regions b).Nodup :=
  List.nodup_range.sublist (chosenPositions_sublist f regions b)

theorem pairwise_chosenPositions : (f.chosenPositions regions b).Pairwise (· < ·) :=
  List.pairwise_lt_range.sublist (chosenPositions_sublist f regions b)

theorem minimize_sublist : (f.minimize regions b).Sublist regions := by
  have sublist := (chosenPositions_sublist f regions b).filterMap (regions[·]?)
  rwa [filterMap_range_getElem?] at sublist

theorem map_some_minimize (f : Frame) (regions : List (Region f.size)) (b : Bool) :
    (f.minimize regions b).map some = (f.chosenPositions regions b).map (regions[·]?) :=
  map_some_filterMap fun k member => by
    simpa using (chosenPositions_sublist f regions b).mem member

theorem length_minimize :
    (f.minimize regions b).length = (f.chosenPositions regions b).length := by
  simpa using congrArg List.length (map_some_minimize f regions b)

theorem minimize_eq_self_iff_chosen :
    f.minimize regions b = regions ↔ ∀ k < regions.length, k ∈ f.chosenPositions regions b := by
  constructor
  · intro same k inRange
    have whole : f.chosenPositions regions b = List.range regions.length :=
      (chosenPositions_sublist f regions b).eq_of_length
        (by rw [← length_minimize, same, List.length_range])
    rw [whole]
    exact List.mem_range.2 inRange
  · intro all
    have whole : f.chosenPositions regions b = List.range regions.length :=
      List.filter_eq_self.2 fun k member => (List.mem_filter.1 (all k (List.mem_range.1 member))).2
    rw [minimize, whole, filterMap_range_getElem?]

theorem solvedAt_minimize {i : Nat} : f.SolvedAt (f.minimize regions b) p i ↔
    ∃ k, (f.chosenPositions regions b)[i]? = some k ∧ f.SolvedAt regions p k := by
  have eq := congrArg (·[i]?) (map_some_minimize f regions b)
  simp only [List.getElem?_map] at eq
  cases at_i : (f.chosenPositions regions b)[i]? with
  | none =>
    rw [at_i, Option.map_none, Option.map_eq_none_iff] at eq
    simp [SolvedAt, eq]
  | some k =>
    rw [at_i, Option.map_some] at eq
    obtain ⟨r, at_i', at_k⟩ := Option.map_eq_some_iff.1 eq
    simp [SolvedAt, at_i', ← at_k]

/-- Among the regions at some positions, only the one at a position solves some problem. -/
def NeededAmong (f : Frame) (b : Bool) (regions : List (Region f.size)) (positions : List Nat)
    (k : Nat) : Prop :=
  ∃ p, f.IsProblem b p ∧ ∀ j ∈ positions, f.SolvedAt regions p j ↔ j = k

theorem isRequired_minimize {i : Nat} (at_i : (f.chosenPositions regions b)[i]? = some k) :
    f.IsRequired b (f.minimize regions b) i ↔
      f.NeededAmong b regions (f.chosenPositions regions b) k := by
  refine exists_congr fun p => and_congr_right fun _ => ?_
  simp only [solvedAt_minimize]
  constructor
  · intro only j member
    obtain ⟨i', at_i'⟩ := List.mem_iff_getElem?.1 member
    constructor
    · intro solved
      obtain rfl := (only i').1 ⟨j, at_i', solved⟩
      exact Option.some.inj (at_i'.symm.trans at_i)
    · rintro rfl
      obtain ⟨k, at_k, solved⟩ := (only i).2 rfl
      exact Option.some.inj (at_k.symm.trans at_i) ▸ solved
  · intro only i'
    constructor
    · rintro ⟨j, at_i', solved⟩
      obtain rfl := (only j (List.mem_of_getElem? at_i')).1 solved
      exact (List.getElem?_inj (List.getElem?_eq_some_iff.1 at_i').1 nodup_chosenPositions).1
        (at_i'.trans at_i.symm)
    · rintro rfl
      exact ⟨k, at_i, (only k (List.mem_of_getElem? at_i)).2 rfl⟩

theorem irredundant_minimize_iff : f.Irredundant b (f.minimize regions b) ↔
    ∀ k ∈ f.chosenPositions regions b, f.NeededAmong b regions (f.chosenPositions regions b) k := by
  constructor
  · intro irredundant k member
    obtain ⟨i, at_i⟩ := List.mem_iff_getElem?.1 member
    refine (isRequired_minimize at_i).1 (irredundant i ?_)
    rw [length_minimize]
    exact (List.getElem?_eq_some_iff.1 at_i).1
  · intro needed i inRange
    rw [length_minimize] at inRange
    have at_i := List.getElem?_eq_getElem inRange
    exact (isRequired_minimize at_i).2 (needed _ (List.getElem_mem inRange))

theorem IsRequired.neededAmong (required : f.IsRequired b regions k) (positions : List Nat) :
    f.NeededAmong b regions positions k := by
  obtain ⟨p, problem, only⟩ := required
  exact ⟨p, problem, fun j _ => only j⟩

/-! ### Lists that are kept whole -/

/-- All regions are kept exactly if each is the only one that solves some problem: the last one
added would be the only solver of its problem, and required already. -/
theorem minimize_eq_self_iff : f.minimize regions b = regions ↔ f.Irredundant b regions := by
  obtain ⟨added, inTurn, chosen⟩ := exists_addedInTurn f b regions
  rw [minimize_eq_self_iff_chosen]
  simp only [chosen]
  constructor
  · intro all
    rcases List.eq_nil_or_concat' added with rfl | ⟨before, k, rfl⟩
    · exact fun k inRange => (all k inRange).resolve_right List.not_mem_nil
    have inside (j : Nat) (member : j ∈ List.range regions.length) :
        f.IsRequired b regions j ∨ j ∈ before ++ [k] := all j (List.mem_range.1 member)
    obtain ⟨p, problem, free, solved, only⟩ := inTurn.exists_last inside
    have required : f.IsRequired b regions k := by
      refine ⟨p, problem, fun j => ⟨fun solvedAt => ?_, fun eq => eq ▸ solved⟩⟩
      exact (only j (List.mem_range.2 solvedAt.lt_length)).1 solvedAt
    exact absurd solved (free k required)
  · exact fun irredundant k inRange => .inl (irredundant k inRange)

/-- As long as a region is superfluous, the list gets shorter. -/
theorem irredundant_iterate {n : Nat} (enough : regions.length ≤ n) :
    f.Irredundant b ((f.minimize · b)^[n] regions) := by
  induction n generalizing regions with
  | zero =>
    obtain rfl := List.eq_nil_of_length_eq_zero (Nat.le_zero.1 enough)
    exact fun k inRange => absurd inRange (Nat.not_lt_zero k)
  | succ n ih =>
    by_cases same : f.minimize regions b = regions
    · rw [Function.iterate_fixed same]
      exact minimize_eq_self_iff.1 same
    · rw [Function.iterate_succ_apply]
      refine ih (Nat.lt_succ_iff.1 (lt_of_lt_of_le ?_ enough))
      exact lt_of_le_of_ne minimize_sublist.length_le
        fun length => same (minimize_sublist.eq_of_length length)

/-! ### What the choice promises -/

/-- What is kept is a sublist that solves what all regions solve. It has every region that is the
only solver of a problem, and each of its regions is the first solver of some problem. -/
theorem minimize_complete (f : Frame) (b : Bool) (regions : List (Region f.size)) :
    (f.minimize regions b).Sublist regions ∧
    (∀ p, f.IsProblem b p → (∃ r ∈ regions, f.solves r p = true) →
      ∃ r ∈ f.minimize regions b, f.solves r p = true) ∧
    ∃ positions : List Nat, positions.Pairwise (· < ·) ∧
      f.minimize regions b = positions.filterMap (regions[·]?) ∧
      (∀ k, f.IsRequired b regions k → k ∈ positions) ∧
      ∀ k ∈ positions, ∃ p, f.IsProblem b p ∧ f.FirstSolvedAt regions p k := by
  obtain ⟨added, inTurn, chosen⟩ := exists_addedInTurn f b regions
  refine ⟨minimize_sublist, fun p problem solved => exists_solver_minimize problem solved,
    f.chosenPositions regions b, pairwise_chosenPositions, rfl,
    fun k required => (chosen k).2 (.inl required), fun k member => ?_⟩
  rcases (chosen k).1 member with ⟨p, problem, only⟩ | new
  · exact ⟨p, problem, (only k).2 rfl, fun j solved => ((only j).1 solved).ge⟩
  · exact inTurn.exists_first new

/-- Three regions of the line, of which the middle one solves every problem that any of them
solves. -/
def overlappingCounters : List (Region strayLineFrame.size) :=
  [⟨[⟨0, 1⟩, ⟨1, 1⟩], 0, rfl⟩, ⟨[⟨0, 1⟩, ⟨2, 0⟩], 1, rfl⟩, ⟨[⟨0, 0⟩, ⟨1, 0⟩], 1, rfl⟩]

/-- The last region is dropped, and the middle one solves its problem. -/
theorem minimize_complete_overlappingCounters :
    strayLineFrame.IsProblem true (.event "s2" "b") ∧
    (∃ r ∈ overlappingCounters, strayLineFrame.solves r (.event "s2" "b") = true) ∧
    ∃ r ∈ strayLineFrame.minimize overlappingCounters true,
      strayLineFrame.solves r (.event "s2" "b") = true := by
  have problem : strayLineFrame.IsProblem true (.event "s2" "b") :=
    .event "s2" "b" (by decide) (by decide) (by decide)
  have solved : ∃ r ∈ overlappingCounters, strayLineFrame.solves r (.event "s2" "b") = true := by
    decide
  exact ⟨problem, solved, (minimize_complete strayLineFrame true overlappingCounters).2.1 _ problem
    solved⟩

/-- What is kept are the required regions and others added in turn. Each of them solves a problem
that no other one solves, apart perhaps from those added before the last one. The choice leaves a
list alone exactly if nothing in it is superfluous, and made often enough it comes to such a list.
-/
theorem minimize_in_turn (f : Frame) (b : Bool) (regions : List (Region f.size)) :
    (∃ added, f.AddedInTurn b regions added ∧
      (∀ k, k ∈ f.chosenPositions regions b ↔ f.IsRequired b regions k ∨ k ∈ added) ∧
      ∀ k ∈ f.chosenPositions regions b, k ∈ added.dropLast ∨
        f.NeededAmong b regions (f.chosenPositions regions b) k) ∧
    (f.Irredundant b (f.minimize regions b) ↔
      ∀ k ∈ f.chosenPositions regions b,
        f.NeededAmong b regions (f.chosenPositions regions b) k) ∧
    (f.minimize (f.minimize regions b) b = f.minimize regions b ↔
      f.Irredundant b (f.minimize regions b)) ∧
    ∀ n, regions.length ≤ n → f.Irredundant b ((f.minimize · b)^[n] regions) := by
  obtain ⟨added, inTurn, chosen⟩ := exists_addedInTurn f b regions
  refine ⟨⟨added, inTurn, chosen, fun k member => ?_⟩, irredundant_minimize_iff,
    minimize_eq_self_iff, fun n => irredundant_iterate⟩
  rcases (chosen k).1 member with required | new
  · exact .inr (required.neededAmong _)
  rcases List.eq_nil_or_concat' added with rfl | ⟨before, last, rfl⟩
  · exact absurd new List.not_mem_nil
  rcases List.mem_append.1 new with earlier | now
  · exact .inl (by simpa using earlier)
  · obtain rfl := List.mem_singleton.1 now
    obtain ⟨p, problem, _, _, only⟩ := inTurn.exists_last fun j inside => (chosen j).1 inside
    exact .inr ⟨p, problem, only⟩

theorem not_isRequired_overlappingCounters (k : Nat) :
    ¬ strayLineFrame.IsRequired true overlappingCounters k := by
  have several : ∀ p ∈ strayLineFrame.problems true,
      (strayLineFrame.solvers overlappingCounters p).length ≠ 1 := by
    decide
  rw [isRequired_iff]
  rintro ⟨p, listed, alone⟩
  exact several p listed (by rw [alone, List.length_singleton])

/-- None of the regions is required. The first two are added in turn, and one of them, which is not
the last one added, has no problem of its own. -/
theorem minimize_in_turn_overlappingCounters :
    strayLineFrame.chosenPositions overlappingCounters true = [0, 1] ∧
    (∃ added, strayLineFrame.AddedInTurn true overlappingCounters added ∧
      (∀ k, k ∈ [0, 1] ↔ k ∈ added) ∧
      ∃ k ∈ added.dropLast, ¬ strayLineFrame.NeededAmong true overlappingCounters [0, 1] k) ∧
    strayLineFrame.minimize (strayLineFrame.minimize overlappingCounters true) true ≠
      strayLineFrame.minimize overlappingCounters true ∧
    ¬ strayLineFrame.Irredundant true (strayLineFrame.minimize overlappingCounters true) ∧
    overlappingCounters.length ≤ 3 ∧
    strayLineFrame.Irredundant true ((strayLineFrame.minimize · true)^[3] overlappingCounters) := by
  have positions : strayLineFrame.chosenPositions overlappingCounters true = [0, 1] := by decide
  have shorter : strayLineFrame.minimize (strayLineFrame.minimize overlappingCounters true) true ≠
      strayLineFrame.minimize overlappingCounters true := by
    decide
  obtain ⟨⟨added, inTurn, chosen, own⟩, needed, stable, often⟩ :=
    minimize_in_turn strayLineFrame true overlappingCounters
  have redundant := fun irredundant => shorter (stable.2 irredundant)
  rw [positions] at chosen own needed
  refine ⟨positions, ⟨added, inTurn, fun k => ?_, ?_⟩, shorter, redundant, le_rfl, often 3 le_rfl⟩
  · rw [chosen k, or_iff_right (not_isRequired_overlappingCounters k)]
  · by_contra! all
    exact redundant (needed.2 fun k member => (own k member).elim (all k) id)

/-- The first region is added for an early problem, and the middle one for a later problem that the
first region does not solve. Then the first one has no problem of its own, and the choice made once
more drops it. -/
theorem overlappingCounters_superfluous :
    (∀ r ∈ overlappingCounters, strayLineFrame.isValid r = true) ∧
    ∀ b, ¬ strayLineFrame.Irredundant b (strayLineFrame.minimize overlappingCounters b) ∧
      strayLineFrame.minimize (strayLineFrame.minimize overlappingCounters b) b ≠
        strayLineFrame.minimize overlappingCounters b := by
  refine ⟨by decide, fun b => ?_⟩
  have shorter : strayLineFrame.minimize (strayLineFrame.minimize overlappingCounters b) b ≠
      strayLineFrame.minimize overlappingCounters b := by
    cases b <;> decide
  exact ⟨fun irredundant => shorter (minimize_eq_self_iff.2 irredundant), shorter⟩

end NetSynthesis.Frame
