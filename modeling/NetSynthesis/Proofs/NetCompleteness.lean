import NetSynthesis.Proofs.NetRegions
import NetSynthesis.Proofs.SynthesizedNet

/-! Completeness of synthesis. If some net with the properties asked for has the system for its
marking graph, the places of that net are regions that solve all problems, and with a solver that is
exact synthesis succeeds. -/
namespace NetSynthesis

open NetSynthesis.Frame LabelledGraph

variable {ts : TransitionSystem} {root : State} {solve : Solver} {goal : NetClass} {o : Options}
  {net : Net} {f : Frame}

theorem Frame.isDistributed_eq_ok (distributed : f.isDistributed net = .ok true) :
    ∃ ls, f.locations = .ok ls ∧
      net.isDistributed (fun e => ((f.events.zip ls).lookup e).join) = true := by
  obtain ⟨ls, located, rest⟩ := bind_eq_ok.1 distributed
  exact ⟨ls, located, pure_eq_ok.1 rest⟩

namespace Solver

open Classical in
/-- Some optimal point of a program, if it has one. -/
noncomputable def best : Solver := fun p =>
  if solved : ∃ x, p.Optimal x then some solved.choose else none

theorem cost_nonneg {p : IntegerProgram} {x : IntVector} (feasible : p.feasible x = true) :
    0 ≤ p.cost x := by
  have nonneg := (nonneg_of_inRange (Bool.and_eq_true_iff.1 feasible).1).2
  have sum (ys : IntVector) (all : ∀ k ∈ ys, 0 ≤ k) : 0 ≤ IntVector.total ys := by
    induction ys with
    | nil => exact Int.le_refl 0
    | cons y ys ih =>
      obtain ⟨first, rest⟩ := List.forall_mem_cons.1 all
      exact Int.add_nonneg first (ih rest)
  exact sum _ fun k member => nonneg k (List.mem_of_mem_take member)

/-- A program with feasible points has an optimal one, because costs are not negative. -/
theorem exists_optimal {p : IntegerProgram} {x : IntVector} (feasible : p.feasible x = true) :
    ∃ y, p.Optimal y := by
  generalize size : (p.cost x).toNat = n
  induction n using Nat.strongRecOn generalizing x with
  | ind n ih =>
    by_cases least : ∀ y, p.feasible y = true → p.cost x ≤ p.cost y
    · exact ⟨x, feasible, least⟩
    · simp only [not_forall, Int.not_le] at least
      obtain ⟨y, other, less⟩ := least
      have above := cost_nonneg other
      exact ih (p.cost y).toNat (by omega) other rfl

theorem best_exact : best.Exact := by
  refine ⟨fun p x answer => ?_, fun p answer x => ?_⟩
  · rw [best] at answer
    split at answer
    · rename_i solved
      exact Option.some.inj answer ▸ solved.choose_spec
    · simp at answer
  · rw [← Bool.not_eq_true]
    intro feasible
    simp [best, exists_optimal feasible] at answer

end Solver

namespace Synthesis

/-! ### A net with two places -/

def toggleNet : Net where
  places := [⟨"a", 1⟩, ⟨"b", 0⟩]
  transitions := [⟨"t", "up"⟩, ⟨"u", "down"⟩]
  flows := [⟨"a", "t", 1⟩, ⟨"t", "b", 1⟩, ⟨"b", "u", 1⟩, ⟨"u", "a", 1⟩]

def strict : NetClass :=
  { pure := true, plain := true, bound := some 1, tNet := true, outputNonbranching := true,
    conflictFree := true }

theorem all_representable : NetClass.all.Representable ({} : Options).weightLimit :=
  NetClass.representable_of_le (by decide) (by decide)

theorem strict_representable : strict.Representable ({} : Options).weightLimit :=
  NetClass.representable_of_le (by decide) (by decide)

theorem toggle_reachable : ∀ s ∈ toggle.states, (toggle.behaviour "off").Reaches s := by
  have found : ∀ s ∈ toggle.states, toggleFrame.isReachable s = true := by decide
  exact fun s member => toggleFrame_rooted.isReachable_iff_reaches.1 (found s member)

theorem toggleNet_distributed :
    ∃ f, Frame.ofSystem toggle = .ok f ∧ f.isDistributed toggleNet = .ok true :=
  ⟨toggleFrame, rfl, rfl⟩

def toggleMarking (s : State) : Marking := if s = "off" then [1, 0] else [0, 1]

theorem toggleNet_tracks :
    Tracks (toggle.behaviour "off") toggleNet.behaviour toggleMarking := by
  have forth : ∀ a ∈ toggle.arcs, ∃ t ∈ toggleNet.transitions, t.label = a.label ∧
      toggleNet.fire (toggleMarking a.source) t.id = .ok (toggleMarking a.target) := by decide
  have back : ∀ s ∈ toggle.states, ∀ t ∈ toggleNet.transitions,
      (toggleNet.fire (toggleMarking s) t.id).toOption.all (fun k => toggle.arcs.any fun a =>
        a.source == s && a.label == t.label && toggleMarking a.target == k) = true := by decide
  refine ⟨rfl, ?_, ?_⟩
  · rintro _ _ _ _ ⟨a, arc, rfl, rfl, rfl⟩
    exact forth a arc
  · rintro s _ k reached ⟨t, member, rfl, fired⟩
    have known : s ∈ toggle.states :=
      toggleFrame_rooted.mem_states (toggleFrame_rooted.isReachable_iff_reaches.2 reached)
    have some := back s known t member
    rw [fired] at some
    obtain ⟨a, arc, same⟩ := List.any_eq_true.1 some
    simp only [Bool.and_eq_true] at same
    have target : toggleMarking a.target = k := eq_of_beq same.2
    exact ⟨a.target, ⟨a, arc, eq_of_beq same.1.1, eq_of_beq same.1.2, rfl⟩, target⟩

theorem toggleNet_isomorphic : (toggle.behaviour "off").Isomorphic toggleNet.behaviour := by
  have apart : ∀ s ∈ toggle.states, ∀ t ∈ toggle.states,
      toggleMarking s = toggleMarking t → s = t := by decide
  have known {s : State} (reached : (toggle.behaviour "off").Reaches s) : s ∈ toggle.states :=
    toggleFrame_rooted.mem_states (toggleFrame_rooted.isReachable_iff_reaches.2 reached)
  exact toggleNet_tracks.isomorphic fun s t hs ht => apart s (known hs) t (known ht)

theorem toggleNet_safe : ∀ m : Marking, toggleNet.behaviour.Reaches m → ∀ x ∈ m, x ≤ 1 := by
  rintro m ⟨w, path⟩
  obtain ⟨s, _, rfl⟩ := toggleNet_tracks.path_back path
  simp only [toggleMarking]
  split <;> decide

theorem toggleNet_admissible : toggleNet.Admissible toggle.alphabet strict 32 := by
  refine ⟨by constructor <;> decide, by decide, by decide, ?_⟩
  refine ⟨by decide, by decide, fun k given m reached => ?_, by decide, by decide, by decide⟩
  obtain rfl : 1 = k := Option.some.inj given
  exact toggleNet_safe m reached

theorem toggleNet_admissible_vast : toggleNet.Admissible toggle.alphabet vast 32 := by
  refine ⟨toggleNet_admissible.wellFormed, toggleNet_admissible.labels,
    toggleNet_admissible.light, ?_⟩
  refine ⟨nofun, nofun, fun k given m reached x member => ?_, nofun, nofun, nofun⟩
  obtain rfl : Nat.pow 10 400 = k := Option.some.inj given
  have few := toggleNet_safe m reached x member
  have large : 1 ≤ Nat.pow 10 400 := by decide +kernel
  omega

theorem toggleFrame_vast (languageOnly : Bool) :
    ¬ ∃ run, Synthesis.run .best toggleFrame vast {} languageOnly = .ok run :=
  have located : toggleFrame.locations = .ok [none, none] := rfl
  run_vast toggleFrame_rooted rfl (by decide) located rfl (by decide)

end Synthesis

end NetSynthesis
