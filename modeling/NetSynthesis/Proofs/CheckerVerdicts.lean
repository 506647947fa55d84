import Mathlib.Data.List.Nodup
import NetSynthesis.Proofs.IsomorphismVerdict
import NetSynthesis.Proofs.MarkingExploration
import NetSynthesis.Proofs.NetRegions
import NetSynthesis.Proofs.SearchedLists
import NetSynthesis.SynthesisChecks

/-! What checkers report. If the checks have different names, the report lists the checks whose
condition does not hold, in the order of registration, and there is one just if all conditions
answer. The checks of synthesized nets have different names, those for a class pass where the net is
in the class, and the one for isomorphism compares the behaviour of the net and of the system. -/
namespace NetSynthesis

variable {ρ : Type} {net : Net} {limit : Int}

namespace Checker

def violation (net : Net) (k : Check) : Violation := ⟨k.name, k.severity, k.message, net.name⟩

def passes (net : Net) (k : Check) : Bool := (k.condition net).toOption.getD false

theorem passes_eq {k : Check} {b : Bool} (answer : k.condition net = .ok b) :
    passes net k = b := by
  rw [passes, answer]
  rfl

/-- The checks of a checker have different names and are switched on. -/
structure Registered (c : Checker ρ) : Prop where
  names_nodup : c.names.Nodup
  enabled : ∀ k ∈ c.checks, k.enabled = true

variable {c : Checker ρ}

theorem check_checks (c : Checker ρ) (name : String) (net : Net) :
    (c.check name net).1.checks = c.checks := by
  rw [check]
  split
  · rfl
  · dsimp only
    split <;> rfl

theorem Registered.check (registered : Registered c) (net : Net) {k : Check}
    (member : k ∈ c.checks) :
    (c.check k.name net).2 =
      (k.condition net).map fun holds => if holds then none else some (violation net k) := by
  have found := find?_of_nodup registered.names_nodup member
  rw [Checker.check, found]
  simp only [registered.enabled k member, if_true]
  cases k.condition net with
  | error e => rfl
  | ok holds => cases holds <;> rfl

theorem Registered.checkNames {ks : List Check} (registered : Registered c)
    (known : ks ⊆ c.checks) (r : Report) : (checkNames net (ks.map (·.name)) c r).2 =
      (ks.mapM fun k : Check => k.condition net).map fun _ => { r with
        checked := r.checked ++ ks.map (·.name)
        violations := r.violations ++ (ks.filter (!passes net ·)).map (violation net) } := by
  induction ks generalizing c r with
  | nil => simp [Checker.checkNames, pure, Except.pure, Except.map]
  | cons k ks ih =>
    obtain ⟨member, rest⟩ := List.cons_subset.1 known
    have checks := check_checks c k.name net
    have answer_k := registered.check net member
    rw [List.map_cons, Checker.checkNames, List.mapM_cons]
    generalize c.check k.name net = answer at checks answer_k
    obtain ⟨c', v⟩ := answer
    simp only at checks answer_k
    have kept : Registered c' := by
      refine ⟨?_, checks ▸ registered.enabled⟩
      rw [names, checks]
      exact registered.names_nodup
    have others := ih kept (checks ▸ rest)
    cases answer : k.condition net with
    | error e => simp [answer_k, answer, Except.map, bind, Except.bind]
    | ok holds =>
      simp only [answer_k, answer, Except.map, others]
      cases ks.mapM fun k : Check => k.condition net with
      | error e => rfl
      | ok _ => cases holds <;> simp [passes_eq answer, bind, Except.bind, pure, Except.pure]

/-- The report of all checks lists those that do not pass. -/
theorem Registered.checkAll (registered : Registered c) : (c.checkAll net).2 =
    (c.checks.mapM fun k : Check => k.condition net).map fun _ => {
      net := net.name
      checked := c.names
      violations := (c.checks.filter (!passes net ·)).map (violation net) } :=
  registered.checkNames (List.Subset.refl _) _

end Checker

/-! ### The checks of synthesized nets -/

theorem boundName_ne {k : Nat} {x : String} (differ : ¬ "-bounded".toList <:+ x.toList) :
    s!"{k}-bounded" ≠ x := by
  rintro rfl
  exact differ ⟨(toString k).toList, (String.toList_append).symm⟩

theorem ite_singleton_sublist {α : Type} (b : Bool) (x : α) :
    (if b = true then [x] else []).Sublist [x] := by
  cases b <;> simp

/-- The names of checks that do not depend on a bound. -/
def fixedNames : List String :=
  ["pure", "plain", "tnet", "output-nonbranching", "conflict-free", "isomorphic", "distributed"]

theorem classChecks_names (c : NetClass) (limit : Int) :
    ((classChecks c limit).map (·.name)).Sublist
      (fixedNames.take 5 ++ c.bound.toList.map fun k => s!"{k}-bounded") := by
  simp only [classChecks, List.map_append, apply_ite (List.map _), List.map_cons, List.map_nil,
    List.map_map, Function.comp_def]
  refine .append ?_ (.refl _)
  exact ((((ite_singleton_sublist _ _).append (ite_singleton_sublist _ _)).append
    (ite_singleton_sublist _ _)).append (ite_singleton_sublist _ _)).append
      (ite_singleton_sublist _ _)

theorem synthesisChecker_names_nodup (record : ρ) (ts : TransitionSystem) (c : NetClass)
    (locations : List (Event × Option Location)) (limit : Int) (isomorphic : Bool) :
    (synthesisChecker record ts c locations limit isomorphic).names.Nodup := by
  have all : (fixedNames.take 5 ++ (c.bound.toList.map fun k => s!"{k}-bounded") ++
      fixedNames.drop 5).Nodup := by
    cases c.bound with
    | none => decide
    | some k =>
      have new : s!"{k}-bounded" ∉ fixedNames.take 5 ++ fixedNames.drop 5 := by
        intro member
        have ends : ∀ x ∈ fixedNames.take 5 ++ fixedNames.drop 5,
            ¬ "-bounded".toList <:+ x.toList := by decide
        exact boundName_ne (ends _ member) rfl
      have nodup := List.nodup_cons.2 ⟨new, by decide⟩
      rw [List.append_assoc]
      exact List.perm_middle.nodup_iff.2 nodup
  refine all.sublist ?_
  simp only [Checker.names, synthesisChecker, List.map_append, apply_ite (List.map _),
    List.map_cons, List.map_nil, List.append_assoc]
  exact (classChecks_names c limit).append
    ((ite_singleton_sublist _ "isomorphic").append (ite_singleton_sublist _ "distributed"))

/-- A net in a class passes the checks for the class if it has a marking graph. -/
theorem passes_classChecks {c : NetClass} {g : MarkingGraph} (inClass : net.InClass c)
    (graph : MarkingGraph.of net limit = .ok g) :
    ∀ k ∈ classChecks c limit, k.condition net = .ok true := by
  intro k member
  simp only [classChecks, List.mem_append, List.mem_map, Option.mem_toList, List.mem_ite_nil_right,
    List.mem_singleton] at member
  obtain ((((⟨given, rfl⟩ | ⟨given, rfl⟩) | ⟨given, rfl⟩) | ⟨given, rfl⟩) | ⟨given, rfl⟩) |
    ⟨bound, given, rfl⟩ := member
  · exact congrArg Except.ok (inClass.pure given)
  · exact congrArg Except.ok (inClass.plain given)
  · exact congrArg Except.ok (inClass.tNet given)
  · exact congrArg Except.ok (inClass.outputNonbranching given)
  · exact congrArg Except.ok (inClass.conflictFree given)
  · have within : g.maxTokens ≤ bound :=
      (MarkingGraph.maxTokens_le_iff graph (Int.natCast_nonneg bound)).2
        (inClass.bounded bound given)
    simp [staysBelow, Net.isBounded, Net.bound, graph, Except.map, within]

theorem synthesisChecker_registered (record : ρ) (ts : TransitionSystem) (c : NetClass)
    (locations : List (Event × Option Location)) (limit : Int) (isomorphic : Bool) :
    (synthesisChecker record ts c locations limit isomorphic).Registered := by
  refine ⟨synthesisChecker_names_nodup record ts c locations limit isomorphic, ?_⟩
  intro k member
  simp only [synthesisChecker, classChecks, List.mem_append, List.mem_map, List.mem_ite_nil_right,
    List.mem_singleton] at member
  obtain (((((((⟨_, rfl⟩ | ⟨_, rfl⟩) | ⟨_, rfl⟩) | ⟨_, rfl⟩) | ⟨_, rfl⟩) | ⟨_, _, rfl⟩) |
    ⟨_, rfl⟩) | ⟨_, rfl⟩) := member <;> rfl

/-- The marking graph is compared with the system as the net is, if it is deterministic. -/
theorem hasGraph_eq_ok {ts : TransitionSystem} {first : State} {g : MarkingGraph}
    (wf : ts.WellFormed) (det : ts.isDeterministic = true) (initial : ts.initial = some first)
    (definite : net.Definite) (graph : MarkingGraph.of net limit = .ok g) :
    ∃ b, hasGraph ts limit net = .ok b ∧
      (b = true ↔ net.behaviour.Isomorphic (ts.behaviour first)) := by
  obtain ⟨s, start, pairs⟩ := MarkingGraph.matches_of graph
  have explored := (MarkingGraph.of_eq_ok graph).1
  obtain ⟨v, answer, holds, _⟩ := Isomorphism.isomorphism_eq_ok explored.wellFormed wf det
    ((MarkingGraph.isDeterministic_iff graph).2 definite) start initial
  refine ⟨v.holds, ?_, holds.trans ⟨pairs.isomorphic.symm.trans, pairs.isomorphic.trans⟩⟩
  simp [hasGraph, graph, answer, Except.map]

/-- Where all other checks pass, the verification is about the graph alone. -/
theorem synthesisChecker_raise {ts : TransitionSystem} {c : NetClass} {same : Bool}
    {locations : List (Event × Option Location)} {isomorphic : Bool}
    (inClass : ∀ k ∈ classChecks c limit, k.condition net = .ok true)
    (distributed : net.isDistributed (fun e => (locations.lookup e).join) = true)
    (graph : hasGraph ts limit net = .ok same) :
    (do (← ((synthesisChecker () ts c locations limit isomorphic).checkAll net).2).raise) =
      if isomorphic && !same then .error (.inconsistent net.name ["isomorphic"]) else .ok () := by
  have none : (classChecks c limit).filter (!Checker.passes net ·) = [] := by
    rw [List.filter_eq_nil_iff]
    intro k member
    simp [Checker.passes_eq (inClass k member)]
  have answers : ∀ k ∈ (synthesisChecker () ts c locations limit isomorphic).checks,
      ∃ b, k.condition net = .ok b := by
    intro k member
    simp only [synthesisChecker, List.mem_append, List.mem_ite_nil_right, List.mem_singleton]
      at member
    obtain (listed | ⟨_, rfl⟩) | ⟨_, rfl⟩ := member
    · exact ⟨true, inClass k listed⟩
    · exact ⟨same, graph⟩
    · exact ⟨true, congrArg Except.ok distributed⟩
  obtain ⟨_, all⟩ := mapM_isOk_iff.2 answers
  rw [(synthesisChecker_registered () ts c locations limit isomorphic).checkAll, all]
  simp only [synthesisChecker, List.filter_append, none, List.nil_append]
  cases isomorphic <;> cases same <;> cases locations.any (·.2.isSome) <;>
    simp [Checker.passes, graph, distributed, Except.toOption, Report.raise, Report.isConsistent,
      Report.errors, Checker.violation, Except.map, bind, Except.bind]

end NetSynthesis
