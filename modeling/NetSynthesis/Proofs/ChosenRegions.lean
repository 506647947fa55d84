import NetSynthesis.Proofs.UnseparatedStates

/-! Which problems stay solved. Two states are told apart by a region or left as a pair, and every
problem that some region solves is solved by a region that is kept. -/
namespace NetSynthesis.Frame

variable {f : Frame} {root : State} {regions : List (Region f.size)}

/-! ### Problems -/

theorem mem_pairs_of_ne {α : Type} {xs : List α} {a b : α} (ma : a ∈ xs) (mb : b ∈ xs)
    (differ : a ≠ b) : (a, b) ∈ pairs xs ∨ (b, a) ∈ pairs xs := by
  induction xs with
  | nil => simp at ma
  | cons x xs ih =>
    simp only [pairs, List.mem_append, List.mem_map, Prod.mk.injEq]
    rcases List.mem_cons.1 ma with rfl | ia <;> rcases List.mem_cons.1 mb with rfl | ib
    · exact absurd rfl differ
    · exact .inl (.inl ⟨b, ib, rfl, rfl⟩)
    · exact .inr (.inl ⟨a, ia, rfl, rfl⟩)
    · exact (ih ia ib).imp .inr .inr

theorem of_mem_pairs {α : Type} {xs : List α} (nodup : xs.Nodup) {a b : α}
    (member : (a, b) ∈ pairs xs) : a ∈ xs ∧ b ∈ xs ∧ a ≠ b := by
  induction xs with
  | nil => simp [pairs] at member
  | cons x xs ih =>
    obtain ⟨fresh, nodup⟩ := List.nodup_cons.1 nodup
    rcases List.mem_append.1 member with first | later
    · obtain ⟨y, inside, eq⟩ := List.mem_map.1 first
      obtain ⟨rfl, rfl⟩ := Prod.mk.inj eq
      exact ⟨by simp, by simp [inside], fun same => fresh (same ▸ inside)⟩
    · obtain ⟨ma, mb, differ⟩ := ih nodup later
      exact ⟨by simp [ma], by simp [mb], differ⟩

theorem mem_eventProblems {s : State} {e : Event} : (s, e) ∈ f.eventProblems ↔
    f.isReachable s = true ∧ e ∈ f.events ∧ f.isDisabled s e = true := by
  simp [eventProblems, mem_reachable]

theorem isDisabled_iff {s : State} {e : Event} :
    f.isDisabled s e = true ↔ ∀ a ∈ f.graph.outgoing s, a.label ≠ e := by
  rw [isDisabled, Option.isNone_iff_eq_none, TransitionSystem.next?_eq_none]

theorem separates_comm (r : Region f.size) (s t : State) :
    f.separates r s t = true ↔ f.separates r t s = true := by
  rw [separates_iff, separates_iff]
  constructor <;> exact fun ⟨hs, ht, differ⟩ => ⟨ht, hs, Ne.symm differ⟩

/-- Two different reachable states, if state separation counts, or a reachable state and an event
that no arc out of it carries. -/
inductive IsProblem (f : Frame) (stateSeparation : Bool) : Problem → Prop where
  | states (s t : State) (counts : stateSeparation = true) (hs : f.isReachable s = true)
      (ht : f.isReachable t = true) (differ : s ≠ t) : IsProblem f stateSeparation (.states s t)
  | event (s : State) (e : Event) (hs : f.isReachable s = true) (known : e ∈ f.events)
      (none : ∀ a ∈ f.graph.outgoing s, a.label ≠ e) : IsProblem f stateSeparation (.event s e)

theorem IsProblem.exists_listed {b : Bool} {p : Problem} (problem : f.IsProblem b p) :
    ∃ q ∈ f.problems b, ∀ r, f.solves r q = true ↔ f.solves r p = true := by
  cases problem with
  | states s t counts hs ht differ =>
    have listed {a b' : State} (pair : (a, b') ∈ pairs f.reachable) :
        Problem.states a b' ∈ f.problems b := by
      rw [counts]
      exact List.mem_append_left _ (List.mem_map.2 ⟨(a, b'), pair, rfl⟩)
    rcases mem_pairs_of_ne (mem_reachable.2 hs) (mem_reachable.2 ht) differ with pair | pair
    · exact ⟨_, listed pair, fun r => Iff.rfl⟩
    · exact ⟨_, listed pair, fun r => separates_comm r t s⟩
  | event s e hs known none =>
    have listed := mem_eventProblems.2 ⟨hs, known, isDisabled_iff.2 none⟩
    exact ⟨.event s e, List.mem_append_right _ (List.mem_map.2 ⟨(s, e), listed, rfl⟩),
      fun r => Iff.rfl⟩

/-- What is listed and solved by some region is a problem. -/
theorem isProblem_of_solves {b : Bool} {p : Problem} (listed : p ∈ f.problems b)
    {r : Region f.size} (solves : f.solves r p = true) : f.IsProblem b p := by
  rcases List.mem_append.1 listed with pair | disabled
  · cases b with
    | false => simp at pair
    | true =>
      obtain ⟨⟨s, t⟩, _, rfl⟩ := List.mem_map.1 pair
      obtain ⟨hs, ht, differ⟩ := separates_iff.1 solves
      exact .states s t rfl hs ht fun same => differ (same ▸ rfl)
  · obtain ⟨⟨s, e⟩, member, rfl⟩ := List.mem_map.1 disabled
    obtain ⟨hs, known, disabled⟩ := mem_eventProblems.1 member
    exact .event s e hs known (isDisabled_iff.1 disabled)

/-! ### Pairs of states -/

theorem mem_statePairs_of_position {s t : State} {i j : Nat} (at_i : f.graph.states[i]? = some s)
    (at_j : f.graph.states[j]? = some t) (differ : s ≠ t) (hs : f.isReachable s = false)
    (later : f.isReachable t = true ∨ i < j) : (s, t) ∈ f.statePairs regions := by
  have apart : j ≠ i := by
    rintro rfl
    exact differ (Option.some.inj (at_i.symm.trans at_j))
  refine List.mem_append_left _ (List.mem_flatMap.2 ⟨(s, i), ?_, ?_⟩)
  · exact List.mem_zipIdx_iff_getElem?.2 at_i
  · simp only [hs, Bool.false_eq_true, if_false]
    refine List.mem_map.2 ⟨(t, j), List.mem_filter.2 ⟨?_, by simpa [apart] using later⟩, rfl⟩
    exact List.mem_zipIdx_iff_getElem?.2 at_j

theorem mem_statePairs_unreachable {s t : State} (ms : s ∈ f.graph.states) (mt : t ∈ f.graph.states)
    (hs : f.isReachable s = false) (ht : f.isReachable t = true) :
    (s, t) ∈ f.statePairs regions := by
  obtain ⟨i, at_i⟩ := List.mem_iff_getElem?.1 ms
  obtain ⟨j, at_j⟩ := List.mem_iff_getElem?.1 mt
  refine mem_statePairs_of_position at_i at_j ?_ hs (.inl ht)
  rintro rfl
  exact Bool.false_ne_true (hs.symm.trans ht)

theorem mem_statePairs_block {s t : State} {block : List State}
    (member : block ∈ f.unseparatedBlocks regions) (pair : (s, t) ∈ pairs block) :
    (s, t) ∈ f.statePairs regions :=
  List.mem_append_right _ (List.mem_flatMap.2 ⟨block, member, pair⟩)

/-- Two states are told apart by a region, or they are a pair, one way or the other. -/
theorem Rooted.separated_or_mem_statePairs (rooted : f.Rooted root) {s t : State}
    (ms : s ∈ f.graph.states) (mt : t ∈ f.graph.states) (differ : s ≠ t) :
    (∃ r ∈ regions, f.separates r s t = true) ∨ (s, t) ∈ f.statePairs regions ∨
      (t, s) ∈ f.statePairs regions := by
  cases hs : f.isReachable s <;> cases ht : f.isReachable t
  · obtain ⟨i, at_i⟩ := List.mem_iff_getElem?.1 ms
    obtain ⟨j, at_j⟩ := List.mem_iff_getElem?.1 mt
    rcases Nat.lt_trichotomy i j with before | rfl | after
    · exact .inr (.inl (mem_statePairs_of_position at_i at_j differ hs (.inr before)))
    · exact absurd (Option.some.inj (at_i.symm.trans at_j)) differ
    · exact .inr (.inr (mem_statePairs_of_position at_j at_i differ.symm ht (.inr after)))
  · exact .inr (.inl (mem_statePairs_unreachable ms mt hs ht))
  · exact .inr (.inr (mem_statePairs_unreachable mt ms ht hs))
  · rcases separated_or_mem_block rooted.wellFormed hs ht differ with
      separated | ⟨block, member, inS, inT⟩
    · exact .inl separated
    · exact .inr ((mem_pairs_of_ne inS inT differ).imp (mem_statePairs_block member)
        (mem_statePairs_block member))

theorem statePairs_cases (wf : f.graph.WellFormed) {s t : State}
    (member : (s, t) ∈ f.statePairs regions) : s ≠ t ∧
      (s ∈ f.graph.states ∧ t ∈ f.graph.states ∧ f.isReachable s = false ∨
        f.Indistinct regions s t) := by
  rcases List.mem_append.1 member with unreachable | inBlock
  · obtain ⟨⟨s', i⟩, ms, inside⟩ := List.mem_flatMap.1 unreachable
    simp only at inside
    split at inside
    · simp at inside
    rename_i off
    obtain ⟨⟨t', j⟩, mt, eq⟩ := List.mem_map.1 inside
    obtain ⟨rfl, rfl⟩ := Prod.mk.inj eq
    obtain ⟨mt, differ⟩ := List.mem_filter.1 mt
    have at_i := List.mem_zipIdx_iff_getElem?.1 ms
    have at_j := List.mem_zipIdx_iff_getElem?.1 mt
    refine ⟨?_, .inl ⟨List.mem_of_getElem? at_i, List.mem_of_getElem? at_j, by simpa using off⟩⟩
    rintro rfl
    have equal : i = j := (List.getElem?_inj (List.getElem?_eq_some_iff.1 at_i).1
      wf.states_nodup).1 (at_i.trans at_j.symm)
    simp [equal] at differ
  · obtain ⟨block, listed, pair⟩ := List.mem_flatMap.1 inBlock
    have classes := isClasses_unseparatedBlocks wf regions
    obtain ⟨ms, mt, differ⟩ := of_mem_pairs (classes.nodup block listed) pair
    exact ⟨differ, .inr ((classes.mem_iff block listed s ms t).1 mt)⟩

theorem Rooted.of_mem_statePairs (rooted : f.Rooted root) {s t : State}
    (member : (s, t) ∈ f.statePairs regions) :
    s ≠ t ∧ (s ∈ f.graph.states ∧ f.isReachable s = false ∨
      f.isReachable s = true ∧ f.isReachable t = true) := by
  obtain ⟨differ, ⟨known, _, off⟩ | ⟨hs, ht, _⟩⟩ := statePairs_cases rooted.wellFormed member
  · exact ⟨differ, .inl ⟨known, off⟩⟩
  · exact ⟨differ, .inr ⟨hs, ht⟩⟩

theorem Rooted.mem_states_of_mem_statePairs (rooted : f.Rooted root) {s t : State}
    (member : (s, t) ∈ f.statePairs regions) : s ∈ f.graph.states ∧ t ∈ f.graph.states := by
  obtain ⟨_, ⟨ms, mt, _⟩ | ⟨hs, ht, _⟩⟩ := statePairs_cases rooted.wellFormed member
  · exact ⟨ms, mt⟩
  · exact ⟨rooted.mem_states hs, rooted.mem_states ht⟩

/-! ### Choice of regions -/

/-- The region at a position solves the problem. -/
def SolvedAt (f : Frame) (regions : List (Region f.size)) (p : Problem) (k : Nat) : Prop :=
  ∃ r, regions[k]? = some r ∧ f.solves r p = true

theorem mem_solvers {p : Problem} {k : Nat} : k ∈ f.solvers regions p ↔ f.SolvedAt regions p k := by
  simp only [solvers, List.mem_map, List.mem_filter, Prod.exists]
  constructor
  · rintro ⟨r, j, ⟨member, solves⟩, rfl⟩
    exact ⟨r, List.mem_zipIdx_iff_getElem?.1 member, solves⟩
  · rintro ⟨r, at_k, solves⟩
    exact ⟨r, k, ⟨List.mem_zipIdx_iff_getElem?.2 at_k, solves⟩, rfl⟩

/-- One more position is chosen only for a problem that no chosen one solves. -/
theorem choose_cases (chosen solvers : List Nat) :
    choose chosen solvers = chosen ∧ (solvers ≠ [] → ∃ k ∈ solvers, k ∈ chosen) ∨
      ∃ k, solvers.head? = some k ∧ (∀ j ∈ chosen, j ∉ solvers) ∧
        choose chosen solvers = chosen ++ [k] := by
  cases solvers with
  | nil => exact .inl ⟨rfl, fun some => absurd rfl some⟩
  | cons k rest =>
    simp only [choose]
    split
    · rename_i known
      obtain ⟨j, member, inside⟩ := List.any_eq_true.1 known
      exact .inl ⟨rfl, fun _ => ⟨j, member, by simpa using inside⟩⟩
    · rename_i unknown
      refine .inr ⟨k, rfl, fun j inside member => unknown ?_, rfl⟩
      exact List.any_eq_true.2 ⟨j, member, by simpa using inside⟩

theorem subset_choose (chosen solvers : List Nat) : chosen ⊆ choose chosen solvers := by
  obtain ⟨same, _⟩ | ⟨k, _, _, more⟩ := choose_cases chosen solvers
  · rw [same]
    exact List.Subset.refl _
  · rw [more]
    exact List.subset_append_left _ _

theorem exists_mem_choose (chosen : List Nat) {solvers : List Nat} (some : solvers ≠ []) :
    ∃ k ∈ solvers, k ∈ choose chosen solvers := by
  obtain ⟨same, known⟩ | ⟨k, first, _, more⟩ := choose_cases chosen solvers
  · rw [same]
    exact known some
  · exact ⟨k, List.mem_of_head? first, by simp [more]⟩

theorem foldl_choose (all : List (List Nat)) (chosen : List Nat) :
    chosen ⊆ all.foldl choose chosen ∧
      ∀ l ∈ all, l ≠ [] → ∃ k ∈ l, k ∈ all.foldl choose chosen := by
  induction all generalizing chosen with
  | nil => simp
  | cons l all ih =>
    obtain ⟨kept, each⟩ := ih (choose chosen l)
    refine ⟨fun k old => kept (subset_choose chosen l old), fun l' member some => ?_⟩
    rcases List.mem_cons.1 member with rfl | later
    · obtain ⟨k, inside, chosen⟩ := exists_mem_choose chosen some
      exact ⟨k, inside, kept chosen⟩
    · exact each l' later some

theorem mem_of_mem_minimize {b : Bool} {r : Region f.size} (member : r ∈ f.minimize regions b) :
    r ∈ regions := by
  obtain ⟨k, _, at_k⟩ := List.mem_filterMap.1 member
  exact List.mem_of_getElem? at_k

/-- No problem loses its last solver. -/
theorem exists_solver_minimize {b : Bool} {p : Problem} (problem : f.IsProblem b p)
    (solved : ∃ r ∈ regions, f.solves r p = true) :
    ∃ r ∈ f.minimize regions b, f.solves r p = true := by
  obtain ⟨q, listed, same⟩ := problem.exists_listed
  simp only [← same] at solved ⊢
  obtain ⟨r, member, solves⟩ := solved
  obtain ⟨i, at_i⟩ := List.mem_iff_getElem?.1 member
  have some : f.solvers regions q ≠ [] := List.ne_nil_of_mem (mem_solvers.2 ⟨r, at_i, solves⟩)
  obtain ⟨k, solver, chosen⟩ := (foldl_choose ((f.problems b).map (f.solvers regions))
    ((((f.problems b).map (f.solvers regions)).filter (·.length == 1)).flatten)).2 _
    (List.mem_map_of_mem listed) some
  obtain ⟨r', at_k, solves⟩ := mem_solvers.1 solver
  refine ⟨r', List.mem_filterMap.2 ⟨k, List.mem_filter.2 ⟨?_, ?_⟩, at_k⟩, solves⟩
  · exact List.mem_range.2 (List.getElem?_eq_some_iff.1 at_k).1
  · simpa using chosen

theorem exists_disables_minimize {b : Bool} {s : State} {e : Event} (hs : f.isReachable s = true)
    (known : e ∈ f.events) (none : ∀ a ∈ f.graph.outgoing s, a.label ≠ e)
    (solved : ∃ r ∈ regions, f.disables r s e = true) :
    ∃ r ∈ f.minimize regions b, f.disables r s e = true :=
  exists_solver_minimize (.event s e hs known none) solved

theorem exists_separates_minimize {s t : State} (solved : ∃ r ∈ regions, f.separates r s t = true) :
    ∃ r ∈ f.minimize regions true, f.separates r s t = true := by
  have ⟨r, _, separates⟩ := solved
  obtain ⟨hs, ht, differ⟩ := separates_iff.1 separates
  exact exists_solver_minimize (.states s t rfl hs ht fun same => differ (same ▸ rfl)) solved

end NetSynthesis.Frame
