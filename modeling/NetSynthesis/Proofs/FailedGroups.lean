import NetSynthesis.Proofs.FailureReports

/-! When the groups of states that a run reports can be trusted. An unreachable state is paired with
every other, so that all reachable states end up in its group, although regions tell them apart. A
group is as it should be if all states are reachable or the run stops at its first failure. -/
namespace NetSynthesis.Synthesis

open DisjointSets Relation

variable {f : Frame} {root : State} {solve : Solver} {c : NetClass} {ls : Locations} {o : Options}
  {run : Synthesis f} {s t : State}

/-- No region of the run gives different tokens to reachable states of one group. -/
def HonestGroups (run : Synthesis f) : Prop :=
  ∀ g ∈ run.failedStateGroups, ∀ s ∈ g, ∀ t ∈ g, f.isReachable s = true → f.isReachable t = true →
    ∀ r ∈ run.regions, f.tokens r s = f.tokens r t

theorem eq_or_of_generated_singleton {a b : State} (related : Generated [(a, b)] s t) :
    s = t ∨ (s = a ∨ s = b) ∧ (t = a ∨ t = b) := by
  refine related.induct (P := fun s t => s = t ∨ (s = a ∨ s = b) ∧ (t = a ∨ t = b)) ⟨?_, ?_, ?_⟩ ?_
  · exact fun _ => .inl rfl
  · exact fun both => both.imp Eq.symm And.symm
  · intro x y z first second
    rcases first with rfl | ⟨left, middle⟩
    · exact second
    · rcases second with rfl | ⟨_, right⟩
      · exact .inr ⟨left, middle⟩
      · exact .inr ⟨left, right⟩
  · intro x y pair
    obtain ⟨rfl, rfl⟩ := Prod.mk.inj (List.mem_singleton.1 pair)
    exact .inr ⟨.inl rfl, .inr rfl⟩

theorem groups_join {a b : State} (differ : a ≠ b) :
    ∃ g, (({} : DisjointSets State).join a b).2.classes.1 = [g] ∧ g.Perm [a, b] := by
  have classes := (joined_empty.join a b).isClasses
  have pair : Generated [(a, b)] a b := .rel a b (by simp)
  generalize (({} : DisjointSets State).join a b).2.classes.1 = groups at classes ⊢
  have first : ∀ g ∈ groups, a ∈ g := by
    intro g member
    obtain ⟨x, inside⟩ := classes.exists_mem_group member
    obtain ⟨y, other, related⟩ := classes.exists_ne member inside
    refine (classes.mem_iff g member x inside a).2 ?_
    rcases ((eq_or_of_generated_singleton related).resolve_left other).1 with rfl | rfl
    · exact .refl x
    · exact .symm _ _ pair
  obtain ⟨g, listed, inA⟩ := classes.exists_mem a b differ pair
  refine ⟨g, ?_, (List.perm_ext_iff_of_nodup (classes.nodup g listed) (by simp [differ])).2
    fun x => ?_⟩
  · match groups, listed, classes.disjoint with
    | [h], listed, _ => rw [List.mem_singleton.1 listed]
    | h :: k :: rest, _, apart =>
      have both := (List.pairwise_cons.1 apart).1 k (by simp)
      exact (both (first h (by simp)) (first k (by simp))).elim
  · rw [classes.mem_iff g listed a inA x]
    constructor
    · intro related
      rcases eq_or_of_generated_singleton related with rfl | ⟨_, either⟩
      · simp
      · simpa using either
    · intro member
      rcases List.mem_cons.1 member with rfl | last
      · exact .refl x
      · exact List.mem_singleton.1 last ▸ pair

section Groups

variable (rooted : f.Rooted root) (exactly : solve.Exact)
  (representable : c.Representable o.weightLimit) (answer : Synthesis.run solve f c o = .ok run)

include rooted exactly representable answer

omit representable in
/-- A run that is to stop at a failure reports two states at most. -/
theorem groups_of_quickFail (located : f.locations = .ok ls) (quick : o.quickFail = true) :
    run.failedStateGroups = [] ∨ ∃ a b,
      (SearchChain.of f f.basis c ls o).separating solve a b = .ok none ∧
        IsClasses run.failedStateGroups (Generated [(a, b)]) := by
  obtain ⟨_, ls', located', cases⟩ := run_cases answer
  obtain rfl := Except.ok.inj (located.symm.trans located')
  have opened := gathered_opening f c o false ls
  have inRange := exactly.inRange
  have empty : (opening f c o false ls).failedStates = {} := rfl
  have none {d : DisjointSets State} (clean : d = {}) : d.classes.1 = [] := by rw [clean]; rfl
  rcases cases with ⟨middle, last, events, states, rfl⟩ | ⟨stopped, result, rfl⟩
  · obtain ⟨gathered, before⟩ := opened.solveEvents rooted inRange events
    have after := (gathered.separateStates rooted inRange states).2 quick
    rw [failedStateGroups, (finish_failures last).2]
    exact .inl (none (after.trans before))
  · have kept : (stopped.enter .failed).failedStateGroups = stopped.failedStates.classes.1 := rfl
    rw [kept]
    obtain ⟨_, _, clean | ⟨a, b, unsolved, joined⟩⟩ := opened.stopped rooted inRange result
    · exact .inl (none clean)
    · refine .inr ⟨a, b, unsolved, ?_⟩
      rw [joined]
      exact (joined_empty.join a b).isClasses

theorem tokens_eq (hs : f.isReachable s = true) (ht : f.isReachable t = true)
    (unsolved : run.chain.separating solve s t = .ok none) :
    ∀ r ∈ run.regions, f.tokens r s = f.tokens r t := by
  obtain ⟨ls, located, gathered⟩ := gathered_of_run rooted exactly.inRange answer
  rw [gathered.chain] at unsolved
  have same := separating_eq_none_iff_tokens rooted located exactly representable hs ht
  exact fun r member => same.1 unsolved r (gathered.obtainable r member)

theorem honestGroups_of_quickFail (quick : o.quickFail = true) : run.HonestGroups := by
  obtain ⟨ls, located, gathered⟩ := gathered_of_run rooted exactly.inRange answer
  intro g member s inS t inT hs ht
  rcases groups_of_quickFail rooted exactly answer located quick with
    none | ⟨a, b, unsolved, classes⟩
  · simp [none] at member
  · rw [← gathered.chain] at unsolved
    have related := (classes.mem_iff g member s inS t).1 inT
    rcases eq_or_of_generated_singleton related with rfl | ⟨rfl | rfl, rfl | rfl⟩
    · exact fun _ _ => rfl
    · exact fun _ _ => rfl
    · exact tokens_eq rooted exactly representable answer hs ht unsolved
    · exact fun r inside => (tokens_eq rooted exactly representable answer ht hs unsolved
      r inside).symm
    · exact fun _ _ => rfl

theorem honestGroups_of_connected (patient : o.quickFail = false)
    (connected : ∀ s ∈ f.graph.states, f.isReachable s = true) : run.HonestGroups := by
  have classes :=
    (isClasses_failedStateGroups rooted exactly representable patient answer connected).2
  intro g listed s inS t inT hs ht
  obtain ⟨_, _, none⟩ := (classes.mem_iff g listed s inS t).1 inT
  exact tokens_eq rooted exactly representable answer hs ht none

/-- All reachable states are in the group of an unreachable one. -/
theorem exists_group_of_unreachable (patient : o.quickFail = false) {u : State}
    (known : u ∈ f.graph.states) (off : f.isReachable u = false) (hs : f.isReachable s = true)
    (ht : f.isReachable t = true) (differ : s ≠ t) :
    ∃ g ∈ run.failedStateGroups, s ∈ g ∧ t ∈ g := by
  obtain ⟨ls, located, gathered⟩ := gathered_of_run rooted exactly.inRange answer
  have classes := (reports_of_run rooted exactly representable patient located answer).2.1 rfl
  have lost {a : State} (ha : f.isReachable a = true) : EqvGen (run.Inseparable solve) u a := by
    refine .rel u a ⟨known, rooted.mem_states ha, ?_⟩
    rw [gathered.chain]
    exact separating_eq_none_of_unreachable rooted located exactly representable off
  have related := EqvGen.trans s u t (.symm u s (lost hs)) (lost ht)
  obtain ⟨g, listed, inS⟩ := classes.exists_mem s t differ related
  exact ⟨g, listed, inS, (classes.mem_iff g listed s inS t).2 related⟩

/-- Apart from runs that stop at a failure, the groups are as they should be just if all states are
reachable, unless there is nothing to be told apart. -/
theorem honestGroups_iff : run.HonestGroups ↔ o.quickFail = true ∨
    (∀ s ∈ f.graph.states, f.isReachable s = true) ∨
      ∀ r ∈ run.regions, ∀ s t, f.isReachable s = true → f.isReachable t = true →
        f.tokens r s = f.tokens r t := by
  by_cases quick : o.quickFail = true
  · exact iff_of_true (honestGroups_of_quickFail rooted exactly representable answer quick)
      (.inl quick)
  have patient : o.quickFail = false := by simpa using quick
  constructor
  · intro honest
    by_cases connected : ∀ s ∈ f.graph.states, f.isReachable s = true
    · exact .inr (.inl connected)
    obtain ⟨u, known, off⟩ : ∃ u, u ∈ f.graph.states ∧ f.isReachable u = false := by
      simpa using connected
    refine .inr (.inr fun r member s t hs ht => ?_)
    by_cases same : s = t
    · rw [same]
    · obtain ⟨g, listed, inS, inT⟩ :=
        exists_group_of_unreachable rooted exactly representable answer patient known off hs ht same
      exact honest g listed s inS t inT hs ht r member
  · rintro (stopped | connected | flat)
    · exact absurd stopped quick
    · exact honestGroups_of_connected rooted exactly representable answer patient connected
    · exact fun _ _ s _ t _ hs ht r member => flat r member s t hs ht

end Groups

/-! ### A cycle and a state beside it -/

/-- Two states on a cycle and a third one without arcs. -/
def strayCycle : TransitionSystem :=
  let there : Arc := ⟨"s0", "a", "s1", none⟩
  let back : Arc := ⟨"s1", "b", "s0", none⟩
  { name := "orph"
    initial := some "s0"
    incidences := [⟨"s0", [there], [back]⟩, ⟨"s1", [back], [there]⟩, ⟨"orphan", [], []⟩]
    arcs := [there, back]
    alphabet := ["a", "b"] }

def strayFrame : Frame := ⟨⟨strayCycle, some "s0", .forward, by decide, _, rfl⟩, rfl, _, rfl⟩

theorem strayFrame_rooted : strayFrame.Rooted "s0" := ⟨by constructor <;> decide, rfl⟩

theorem honestGroups_iff_strayCycle : ∃ o : Options, o.quickFail = true ∧
    ∃ run, Synthesis.run .best strayFrame .all o = .ok run ∧ run.HonestGroups := by
  refine ⟨{ quickFail := true }, rfl, ?_⟩
  have check : (Synthesis.run .best strayFrame .all { quickFail := true }).toOption.isSome =
      true := by decide +kernel
  cases answer : Synthesis.run .best strayFrame .all { quickFail := true } with
  | error e => simp [answer, Except.toOption] at check
  | ok run =>
    exact ⟨run, rfl, (honestGroups_iff (o := { quickFail := true }) strayFrame_rooted
      Solver.best_exact all_representable answer).2 (.inl rfl)⟩

/-- The two states of the cycle are in one group, although both regions tell them apart. -/
theorem not_honestGroups_strayCycle :
    ∃ run, Synthesis.run .best strayFrame = .ok run ∧ ¬ run.HonestGroups := by
  have check : ((Synthesis.run .best strayFrame).toOption.any fun run =>
      (run.failedStateGroups.any fun g => g.contains "s0" && g.contains "s1") &&
        run.regions.any fun r => strayFrame.tokens r "s0" != strayFrame.tokens r "s1") = true := by
    decide +kernel
  cases answer : Synthesis.run .best strayFrame with
  | error e => simp [answer, Except.toOption] at check
  | ok run =>
    simp only [answer, Except.toOption, Option.any_some, Bool.and_eq_true, List.any_eq_true,
      List.contains_iff_mem, bne_iff_ne] at check
    obtain ⟨⟨g, listed, first, second⟩, r, member, differ⟩ := check
    refine ⟨run, rfl, fun honest => differ ?_⟩
    exact honest g listed "s0" first "s1" second (by decide) (by decide) r member

end NetSynthesis.Synthesis
