import Mathlib.Data.Set.Card
import NetSynthesis.Proofs.MarkingExploration

/-! What the outcome of an exploration says about a net. An exploration that stops because of a
marking that covers one on its way is right that there are infinitely many reachable markings. If
there are, it does stop so under any limit that is high enough, as only finitely many states can be
made before. With finitely many, a limit that is not below their number is never reached, and the
only thing left that can go wrong are two transitions with one label and the same effect. -/
namespace NetSynthesis

/-- The markings that a net reaches. -/
abbrev Net.reachableMarkings (net : Net) : Set Marking := { m | net.behaviour.Reaches m }

namespace MarkingGraph

open LabelledGraph Net

variable {net : Net} {limit : Int} {g : MarkingGraph} {c : MarkedState} {t : Transition}
  {ps : List Transition} {e : Error}

/-! ### Graphs -/

theorem reachable_eq (answer : of net limit = .ok g) :
    net.reachableMarkings = { m | m ∈ g.marked.map (·.marking) } := by
  ext m
  refine ⟨fun reached => ?_, fun marked => ?_⟩
  · obtain ⟨c, member, rfl⟩ := exists_marked answer reached
    exact List.mem_map_of_mem member
  · obtain ⟨c, member, rfl⟩ := List.mem_map.1 marked
    exact (of_eq_ok answer).1.reached c member

/-- A net with a graph has finitely many reachable markings, one for each state. -/
theorem encard_reachable (answer : of net limit = .ok g) :
    net.reachableMarkings.encard = g.marked.length := by
  rw [reachable_eq answer, encard_of_nodup (of_eq_ok answer).1.markings_nodup, List.length_map]

theorem twinless_of (answer : of net limit = .ok g) : net.Twinless := by
  intro m reached
  obtain ⟨c, member, rfl⟩ := exists_marked answer reached
  exact ((of_eq_ok answer).2 c member).twinless

/-! ### Failures -/

/-- The reasons for which an exploration fails. -/
inductive Cause (net : Net) (limit : Int) : Error → Prop
  | unbounded {m old : Marking} :
      net.reachableMarkings.Infinite → Cause net limit (.unbounded m old)
  | full {n : Nat} : limit ≤ n → n < net.reachableMarkings.encard →
      n ≤ { w | Uncovered net w }.encard → Cause net limit (.tooManyMarkings limit)
  | twins {s t : State} {l : Event} : ¬ net.Twinless → Cause net limit (.duplicateArc s l t)

namespace Explored

variable (explored : Explored net limit g)

include explored

/-- There are no more states than uncovered ways. -/
theorem length_le_encard : (g.marked.length : ℕ∞) ≤ { w | Uncovered net w }.encard := by
  have nodup : (g.marked.map fun c => c.marking :: c.way).Nodup := by
    refine .of_map List.head? ?_
    simpa [Function.comp_def] using explored.markings_nodup.map (Option.some_injective _)
  have inside : { w | w ∈ g.marked.map fun c => c.marking :: c.way } ⊆
      { w | Uncovered net w } := by
    rintro w member
    obtain ⟨c, marked, rfl⟩ := List.mem_map.1 member
    exact explored.uncovered c marked
  have count := Set.encard_le_encard inside
  rwa [encard_of_nodup nodup, List.length_map] at count

/-- A reachable marking without a state is one more than there are states. -/
theorem length_lt_encard {m : Marking} (reached : net.behaviour.Reaches m)
    (new : m ∉ g.marked.map (·.marking)) :
    (g.marked.length : ℕ∞) < net.reachableMarkings.encard := by
  have nodup : (m :: g.marked.map (·.marking)).Nodup :=
    List.nodup_cons.2 ⟨new, explored.markings_nodup⟩
  have inside : { k | k ∈ m :: g.marked.map (·.marking) } ⊆ net.reachableMarkings := by
    intro k member
    rcases List.mem_cons.1 member with rfl | known
    · exact reached
    · obtain ⟨c, marked, rfl⟩ := List.mem_map.1 known
      exact explored.reached c marked
  have count := Set.encard_le_encard inside
  rw [encard_of_nodup nodup, List.length_cons, List.length_map] at count
  exact lt_of_lt_of_le (by exact_mod_cast Nat.lt_succ_self _) count

end Explored

theorem Fails.cause (fails : Fails net limit e g c ps t) : Cause net limit e := by
  obtain ⟨rest, listed⟩ := fails.next
  have reached := fails.explored.reached c fails.marked
  obtain ⟨enabled, why⟩ := fails.cases
  have fires : net.behaviour.Edge c.marking t.label (net.after c.marking t.id) :=
    fails.explored.edge fails.marked (by simp [listed]) enabled
  obtain ⟨u, before, label, enabled', same, d, _, rfl⟩ |
    ⟨new, ⟨old, behind, above, rfl⟩ | ⟨full, rfl⟩⟩ := why
  · refine .twins fun twinless => ?_
    have apart := twinless c.marking reached
    rw [listed] at apart
    exact (List.pairwise_append.1 apart).2.2 u before t List.mem_cons_self
      ((twins_iff reached).2 ⟨label, enabled', enabled, same⟩)
  -- the way from the covered marking could be gone again and again
  · have way : ∃ w, net.behaviour.Path old w (net.after c.marking t.id) := by
      rcases List.mem_cons.1 behind with rfl | further
      · exact ⟨_, .snoc .nil fires⟩
      · obtain ⟨w, path⟩ := (fails.explored.uncovered c fails.marked).exists_path old further
        exact ⟨_, .snoc path fires⟩
    obtain ⟨w, path⟩ := way
    have found := (fails.explored.uncovered c fails.marked).reaches old behind
    exact .unbounded (infinite_of_covers found path above)
  · exact .full full (fails.explored.length_lt_encard (reached.step fires) new)
      fails.explored.length_le_encard

theorem cause_of_error (answer : of net limit = .error e) : Cause net limit e := by
  obtain ⟨g, c, ps, t, fails⟩ := of_eq_error answer
  exact fails.cause

/-! ### Verdicts -/

/-- With finitely many markings and room for them, only twins make an exploration fail. -/
theorem exists_duplicateArc (finite : net.reachableMarkings.Finite)
    (room : (net.reachableMarkings.ncard : Int) ≤ limit) (answer : of net limit = .error e) :
    ¬ net.Twinless ∧ ∃ s l t, e = .duplicateArc s l t := by
  cases cause_of_error answer with
  | unbounded infinite => exact absurd finite infinite
  | @full n above more _ =>
    rw [← finite.cast_ncard_eq, Nat.cast_lt] at more
    omega
  | twins there => exact ⟨there, _, _, _, rfl⟩

theorem exists_of (twinless : net.Twinless) (finite : net.reachableMarkings.Finite)
    (room : (net.reachableMarkings.ncard : Int) ≤ limit) : ∃ g, of net limit = .ok g := by
  cases answer : of net limit with
  | ok g => exact ⟨g, rfl⟩
  | error e => exact absurd twinless (exists_duplicateArc finite room answer).1

/-- From some limit on, a net with infinitely many reachable markings is found to be unbounded. -/
theorem exists_unbounded (twinless : net.Twinless) (infinite : net.reachableMarkings.Infinite) :
    ∃ least : Int, ∀ limit ≥ least, ∃ m old, of net limit = .error (.unbounded m old) := by
  refine ⟨({ w | Uncovered net w }.ncard : Int) + 1, fun limit enough => ?_⟩
  cases answer : of net limit with
  | ok g =>
    have count := encard_reachable answer
    rw [infinite.encard_eq] at count
    simp at count
  | error e =>
    cases cause_of_error answer with
    | @unbounded m old _ => exact ⟨m, old, rfl⟩
    | @full n above _ ways =>
      rw [← (finite_uncovered net).cast_ncard_eq, Nat.cast_le] at ways
      omega
    | twins there => exact absurd twinless there

theorem eq_tooManyMarkings (twinless : net.Twinless) (finite : net.reachableMarkings.Finite)
    (several : 2 ≤ net.reachableMarkings.ncard) (little : limit < net.reachableMarkings.ncard) :
    of net limit = .error (.tooManyMarkings limit) := by
  cases answer : of net limit with
  | ok g =>
    have count := encard_reachable answer
    rw [← finite.cast_ncard_eq, Nat.cast_inj] at count
    have size := (of_eq_ok answer).1.size
    omega
  | error e =>
    cases cause_of_error answer with
    | unbounded infinite => exact absurd finite infinite
    | full => rfl
    | twins there => exact absurd twinless there

/-- A net that is said to be unbounded has infinitely many reachable markings. Where labels tell
transitions apart, a net that has is said to be unbounded under any limit that is high enough, and
one that has not has a graph just if the limit allows for it. -/
theorem decides_boundedness (net : Net) :
    (∀ limit e, of net limit = .error e → e.kind = .unbounded →
      net.reachableMarkings.Infinite) ∧
    (net.Labelled →
      (net.reachableMarkings.Infinite →
        ∃ least : Int, ∀ limit ≥ least, ∃ m old, of net limit = .error (.unbounded m old)) ∧
      ∀ n : Nat, net.reachableMarkings.encard = n → ∀ limit : Int,
        (n ≤ limit → ∃ g, of net limit = .ok g) ∧
        (limit < n → 2 ≤ n → of net limit = .error (.tooManyMarkings limit))) := by
  refine ⟨fun limit e answer kind => ?_, fun labelled => ⟨fun infinite => ?_,
    fun n count limit => ⟨fun room => ?_, fun little several => ?_⟩⟩⟩
  · cases cause_of_error answer with
    | unbounded infinite => exact infinite
    | full => exact absurd kind (by decide : Error.Kind.value ≠ .unbounded)
    | twins => exact absurd kind (by decide : Error.Kind.value ≠ .unbounded)
  · exact exists_unbounded labelled.twinless infinite
  · have finite : net.reachableMarkings.Finite := Set.finite_of_encard_eq_coe count
    have size : net.reachableMarkings.ncard = n := by simp [Set.ncard, count]
    exact exists_of labelled.twinless finite (size ▸ room)
  · have finite : net.reachableMarkings.Finite := Set.finite_of_encard_eq_coe count
    have size : net.reachableMarkings.ncard = n := by simp [Set.ncard, count]
    exact eq_tooManyMarkings labelled.twinless finite (size ▸ several) (size ▸ little)

def springNet : Net where
  places := [⟨"p", 0⟩]
  transitions := [⟨"t", "spring"⟩]
  flows := [⟨"t", "p", 1⟩]

def shuttleNet : Net where
  places := [⟨"p", 1⟩, ⟨"q", 0⟩]
  transitions := [⟨"t", "there"⟩, ⟨"u", "back"⟩]
  flows := [⟨"p", "t", 1⟩, ⟨"t", "q", 1⟩, ⟨"q", "u", 1⟩, ⟨"u", "p", 1⟩]

theorem encard_shuttle : shuttleNet.reachableMarkings.encard = 2 := by
  have check : (of shuttleNet 2).toOption.any (·.marked.length == 2) = true := by decide +kernel
  cases answer : of shuttleNet 2 with
  | error e => simp [answer, Except.toOption] at check
  | ok g =>
    have size : g.marked.length = 2 := by simpa [answer, Except.toOption] using check
    rw [encard_reachable answer, size]
    rfl

theorem decides_boundedness_spring_shuttle :
    (springNet.Labelled ∧ springNet.reachableMarkings.Infinite ∧
      ∃ least : Int, ∀ limit ≥ least, ∃ m old, of springNet limit = .error (.unbounded m old)) ∧
    shuttleNet.Labelled ∧ shuttleNet.reachableMarkings.encard = 2 ∧
      (∃ g, of shuttleNet 2 = .ok g) ∧ of shuttleNet 1 = .error (.tooManyMarkings 1) := by
  have answer : of springNet 5 = .error (.unbounded [1] [0]) := by decide +kernel
  obtain ⟨sound, complete⟩ := decides_boundedness springNet
  have infinite := sound 5 _ answer rfl
  have labelled : springNet.Labelled := by simp [Labelled, springNet]
  have labelled' : shuttleNet.Labelled := by simp [Labelled, shuttleNet]
  have exact_limit := ((decides_boundedness shuttleNet).2 labelled').2 2 encard_shuttle
  exact ⟨⟨labelled, infinite, (complete labelled).1 infinite⟩, labelled', encard_shuttle,
    (exact_limit 2).1 (by decide), (exact_limit 1).2 (by decide) (by decide)⟩

/-- A net with no more reachable markings than the limit has a graph just if it has no twins. If it
has none, an arc has been made a second time. -/
theorem exists_graph_iff {net : Net} {limit : Int} (finite : net.reachableMarkings.Finite)
    (room : (net.reachableMarkings.ncard : Int) ≤ limit) :
    ((∃ g, of net limit = .ok g) ↔ net.Twinless) ∧
      ∀ e, of net limit = .error e → ∃ s l t, e = .duplicateArc s l t :=
  ⟨⟨fun ⟨_, answer⟩ => twinless_of answer, fun twinless => exists_of twinless finite room⟩,
    fun _ answer => (exists_duplicateArc finite room answer).2⟩

def twinsNet : Net where
  transitions := [⟨"t1", "a"⟩, ⟨"t2", "a"⟩]

theorem reachableMarkings_twins : twinsNet.reachableMarkings = {[]} := by
  ext m
  refine ⟨fun ⟨w, path⟩ => ?_, ?_⟩
  · exact List.length_eq_zero_iff.1 ((IsMarking.initial twinsNet).path path).length
  · rintro rfl
    exact twinsNet.behaviour.reaches_initial

theorem exists_graph_iff_twins : twinsNet.reachableMarkings.Finite ∧
    (twinsNet.reachableMarkings.ncard : Int) ≤ 1 ∧
    ((∃ g, of twinsNet 1 = .ok g) ↔ twinsNet.Twinless) ∧
      ∀ e, of twinsNet 1 = .error e → ∃ s l t, e = .duplicateArc s l t := by
  have finite : twinsNet.reachableMarkings.Finite :=
    reachableMarkings_twins ▸ Set.finite_singleton _
  have room : (twinsNet.reachableMarkings.ncard : Int) ≤ 1 := by
    rw [reachableMarkings_twins, Set.ncard_singleton]
    decide
  exact ⟨finite, room, exists_graph_iff finite room⟩

/-- The only marking has no graph, whatever the limit is. -/
theorem not_exists_graph_twins : twinsNet.reachableMarkings.ncard = 1 ∧
    of twinsNet 1 = .error (.duplicateArc "s0" "a" "s0") ∧
    of twinsNet = .error (.duplicateArc "s0" "a" "s0") := by
  refine ⟨?_, by decide +kernel, by decide +kernel⟩
  rw [reachableMarkings_twins, Set.ncard_singleton]

end MarkingGraph

end NetSynthesis
