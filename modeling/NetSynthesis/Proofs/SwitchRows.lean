import NetSynthesis.Proofs.RegionPoints
import NetSynthesis.RegionClass

/-! The switches of a program. Values of the switches that satisfy their rows exist if and only if
the region is pure and connected to its events as the class asks for. Weights are no greater than
the bound in the rows, so that a switch that is on does not restrict them. -/
namespace NetSynthesis.SeparationProgram

open IntVector

variable {n : Nat} {c : NetClass} {bound : Nat} {r : Region n} {switches x : IntVector}

theorem holds_upper {form : IntVector} {u : Int} :
    ({ form, upper := some u } : Row).holds x = true ↔ form.dot x ≤ u := by
  simp [Row.holds]

theorem holds_lower {form : IntVector} {l : Int} :
    ({ form, lower := some l } : Row).holds x = true ↔ l ≤ form.dot x := by
  simp [Row.holds]

/-- The conditions of a class on the arcs of a place, its weights apart. -/
structure Connected (c : NetClass) (r : Region n) : Prop where
  pure : c.pure = true → r.isPure = true
  tNet : c.tNet = true → r.consumers.length ≤ 1 ∧ r.producers.length ≤ 1
  outputNonbranching : c.outputNonbranching = true → r.consumers.length ≤ 1
  conflictFree : c.conflictFree = true →
    r.consumers.length ≤ 1 ∨ ∀ i ∈ r.consumers, i ∈ r.producers

structure Switched (c : NetClass) (bound : Nat) (r : Region n) (switches : IntVector) : Prop where
  length : switches.length = switchCount n c
  range : ∀ k ∈ switches, 0 ≤ k ∧ k ≤ 1
  holds : ∀ row ∈ (if c.pure then purityRows n bound else []) ++ structuralRows n c bound,
    row.holds (point r switches) = true

theorem value_eq_zero_or_one (range : ∀ k ∈ switches, 0 ≤ k ∧ k ≤ 1) (i : Nat) :
    value switches i = 0 ∨ value switches i = 1 := by
  rw [value]
  cases entry : switches[i]? with
  | none => exact .inl rfl
  | some v =>
    have within := range v (List.mem_of_getElem? entry)
    rw [Option.getD_some]
    omega

def sign (k : Nat) : Int := if 0 < k then 1 else 0

theorem mem_consumers {i : Nat} : i ∈ r.consumers ↔ i < n ∧ 0 < (r.weightAt i).backward := by
  simp [Region.consumers]

theorem mem_producers {i : Nat} : i ∈ r.producers ↔ i < n ∧ 0 < (r.weightAt i).forward := by
  simp [Region.producers]

theorem length_consumers_le (r : Region n) : r.consumers.length ≤ n := by
  have few := List.length_filter_le (fun i => 0 < (r.weightAt i).backward) (List.range n)
  rwa [List.length_range] at few

/-! ### What the rows say -/

theorem purityRows_iff : (∀ row ∈ purityRows n bound, row.holds x = true) ↔ ∀ i < n,
    value x (backward i) ≤ bound * value x (takesOnly n i) ∧
      value x (forward n i) + bound * value x (takesOnly n i) ≤ bound := by
  simp only [purityRows, List.mem_flatMap, List.mem_range, forall_exists_index, and_imp]
  constructor
  · intro holds i inside
    have first := holds _ i inside List.mem_cons_self
    have second := holds _ i inside (List.mem_cons_of_mem _ List.mem_cons_self)
    rw [holds_upper, add_dot, dot_entry, dot_entry] at first second
    constructor <;> lia
  · intro holds row i inside member
    obtain ⟨first, second⟩ := holds i inside
    simp only [List.mem_cons, List.not_mem_nil, or_false] at member
    rcases member with rfl | rfl <;> rw [holds_upper, add_dot, dot_entry, dot_entry] <;> lia

theorem switchRows_iff {weight switch : Nat} {w : Nat} (is : value x weight = w)
    (within : w ≤ bound) (range : value x switch = 0 ∨ value x switch = 1) :
    (∀ row ∈ switchRows bound weight switch, row.holds x = true) ↔ value x switch = sign w := by
  simp only [switchRows, List.forall_mem_cons, holds_upper, holds_lower, add_dot, dot_entry, is,
    List.not_mem_nil, false_implies, implies_true, and_true, sign]
  rcases range with off | on
  · rw [off]; split <;> omega
  · rw [on]; split <;> omega

theorem sum_sign (p : Nat → Nat) :
    ((List.range n).map fun i => sign (p i)).sum = ((List.range n).filter (0 < p ·)).length := by
  induction n with
  | zero => rfl
  | succ n ih =>
    rw [List.range_succ, List.map_append, List.sum_append, ih, List.filter_append,
      List.length_append]
    by_cases positive : 0 < p n <;> simp [sign, positive]

/-- Switches that show which events take and which put. -/
structure Marks (c : NetClass) (r : Region n) (x : IntVector) : Prop where
  takes : ∀ i < n, value x (takes n c i) = sign (r.weightAt i).backward
  puts : ∀ i < n, value x (puts n c i) = sign (r.weightAt i).forward

theorem Marks.dot_consumerForm (marks : Marks c r x) :
    (consumerForm n c).dot x = r.consumers.length := by
  rw [consumerForm, dot_sumOf, List.map_map, Region.consumers, ← sum_sign]
  refine congrArg List.sum (List.map_congr_left fun i inside => ?_)
  rw [Function.comp_apply, dot_entry, marks.takes i (List.mem_range.1 inside), Int.one_mul]

theorem Marks.dot_producerForm (marks : Marks c r x) :
    (producerForm n c).dot x = r.producers.length := by
  rw [producerForm, dot_sumOf, List.map_map, Region.producers, ← sum_sign]
  refine congrArg List.sum (List.map_congr_left fun i inside => ?_)
  rw [Function.comp_apply, dot_entry, marks.puts i (List.mem_range.1 inside), Int.one_mul]

theorem Marks.conflictRows_iff (marks : Marks c r x) :
    (∀ row ∈ conflictRows n c, row.holds x = true) ↔
      r.consumers.length ≤ 1 + n * value x (givesBack n c) ∧ ∀ i < n,
        sign (r.weightAt i).backward + value x (givesBack n c) ≤
          1 + sign (r.weightAt i).forward := by
  simp only [conflictRows, List.forall_mem_cons, List.forall_mem_map, List.mem_range, holds_upper,
    add_dot, dot_entry, marks.dot_consumerForm, dot_sumOf, List.map_cons, List.map_nil,
    List.sum_cons, List.sum_nil]
  refine and_congr (by constructor <;> intro <;> lia) (forall₂_congr fun i inside => ?_)
  rw [marks.takes i inside, marks.puts i inside]
  constructor <;> intro <;> lia

theorem forall_structuralRows {p : Row → Prop} : (∀ row ∈ structuralRows n c bound, p row) ↔
    (c.isStructural = true → (∀ row ∈ indicatorRows n c bound, p row) ∧
      (c.tNet = true ∨ c.outputNonbranching = true →
        p { form := consumerForm n c, upper := some 1 }) ∧
      (c.tNet = true → p { form := producerForm n c, upper := some 1 }) ∧
      (c.conflictFree = true → 0 < n → ∀ row ∈ conflictRows n c, p row)) := by
  rw [structuralRows]
  cases c.isStructural with
  | false => simp
  | true =>
    have group {q : Prop} [Decidable q] (rows : List Row) :
        (∀ row ∈ if q then rows else [], p row) ↔ (q → ∀ row ∈ rows, p row) := by
      split <;> simp_all
    simp only [Bool.not_true, Bool.false_eq_true, if_false, List.forall_mem_append, group,
      List.forall_mem_singleton, Bool.or_eq_true, Bool.and_eq_true, decide_eq_true_eq, and_imp,
      true_implies, and_assoc]

/-! ### From switches to the class -/

theorem isPure_of_purityRows (range : ∀ k, value switches k = 0 ∨ value switches k = 1)
    (rows : ∀ row ∈ purityRows n bound, row.holds (point r switches) = true) :
    r.isPure = true := by
  apply Region.isPure_iff.2
  intro i inside
  obtain ⟨first, second⟩ := purityRows_iff.1 rows i inside
  rw [value_backward inside, takesOnly, value_switch] at first
  rw [value_forward inside, takesOnly, value_switch] at second
  rcases range i with off | on
  · rw [off] at first; right; omega
  · rw [on] at second; left; omega

/-- The last switch tells which of the two conditions is met. -/
theorem Marks.giveBack (marks : Marks c r (point r switches))
    (range : ∀ k, value switches k = 0 ∨ value switches k = 1)
    (rows : ∀ row ∈ conflictRows n c, row.holds (point r switches) = true) :
    r.consumers.length ≤ 1 ∨ ∀ i ∈ r.consumers, i ∈ r.producers := by
  obtain ⟨count, each⟩ := marks.conflictRows_iff.1 rows
  rw [givesBack, SeparationProgram.switches, Nat.add_assoc, value_switch] at count each
  rcases range ((if c.pure then n else 0) + 2 * n) with off | on
  · rw [off] at count; left; omega
  · right
    intro i member
    obtain ⟨inside, takes⟩ := mem_consumers.1 member
    have both := each i inside
    rw [on, sign, if_pos takes, sign] at both
    apply mem_producers.2
    refine ⟨inside, ?_⟩
    split at both <;> omega

variable (within : ∀ i < n, (r.weightAt i).backward ≤ bound ∧ (r.weightAt i).forward ≤ bound)

include within

theorem indicatorRows_iff (range : ∀ k, value switches k = 0 ∨ value switches k = 1) :
    (∀ row ∈ indicatorRows n c bound, row.holds (point r switches) = true) ↔
      Marks c r (point r switches) := by
  have on (k : Nat) : value (point r switches) (1 + 2 * n + k) = 0 ∨
      value (point r switches) (1 + 2 * n + k) = 1 := by
    rw [value_switch]; exact range k
  have takesRange (i : Nat) : value (point r switches) (takes n c i) = 0 ∨
      value (point r switches) (takes n c i) = 1 := by
    rw [takes, SeparationProgram.switches, Nat.add_assoc]; exact on _
  have putsRange (i : Nat) : value (point r switches) (puts n c i) = 0 ∨
      value (point r switches) (puts n c i) = 1 := by
    rw [puts, SeparationProgram.switches, Nat.add_assoc, Nat.add_assoc]; exact on _
  simp only [indicatorRows, List.forall_mem_flatMap, List.forall_mem_append, List.mem_range]
  constructor
  · intro holds
    constructor <;> intro i inside
    · exact (switchRows_iff (value_backward inside) (within i inside).1 (takesRange i)).1
        (holds i inside).1
    · exact (switchRows_iff (value_forward inside) (within i inside).2 (putsRange i)).1
        (holds i inside).2
  · intro marks i inside
    exact ⟨(switchRows_iff (value_backward inside) (within i inside).1 (takesRange i)).2
        (marks.takes i inside),
      (switchRows_iff (value_forward inside) (within i inside).2 (putsRange i)).2
        (marks.puts i inside)⟩

theorem Switched.connected (switched : Switched c bound r switches) : Connected c r := by
  have range := value_eq_zero_or_one switched.range
  have rows := List.forall_mem_append.1 switched.holds
  have structural := forall_structuralRows.1 rows.2
  have marked (some : c.isStructural = true) : Marks c r (point r switches) :=
    (indicatorRows_iff within range).1 (structural some).1
  refine ⟨fun pure => ?_, fun tNet => ?_, fun branching => ?_, fun conflict => ?_⟩
  · have purity := rows.1
    rw [if_pos pure] at purity
    exact isPure_of_purityRows range purity
  · have some : c.isStructural = true := by simp [NetClass.isStructural, tNet]
    have consumers := (structural some).2.1 (.inl tNet)
    have producers := (structural some).2.2.1 tNet
    rw [holds_upper, (marked some).dot_consumerForm] at consumers
    rw [holds_upper, (marked some).dot_producerForm] at producers
    constructor <;> omega
  · have some : c.isStructural = true := by simp [NetClass.isStructural, branching]
    have consumers := (structural some).2.1 (.inr branching)
    rw [holds_upper, (marked some).dot_consumerForm] at consumers
    omega
  · have some : c.isStructural = true := by simp [NetClass.isStructural, conflict]
    cases n with
    | zero =>
      have few := length_consumers_le r
      left; omega
    | succ n =>
      exact (marked some).giveBack range ((structural some).2.2.2 conflict (Nat.succ_pos n))

/-! ### From the class to switches -/

def switchValue (c : NetClass) (r : Region n) (k : Nat) : Int :=
  let pureCount := if c.pure then n else 0
  if k < pureCount then sign (r.weightAt k).backward
  else if k - pureCount < 2 * n then
    if (k - pureCount) % 2 = 0 then sign (r.weightAt ((k - pureCount) / 2)).backward
    else sign (r.weightAt ((k - pureCount) / 2)).forward
  else if r.consumers.length ≤ 1 then 0 else 1

def switchVector (c : NetClass) (r : Region n) : IntVector :=
  (List.range (switchCount n c)).map (switchValue c r)

omit within

theorem switchValue_range (k : Nat) : 0 ≤ switchValue c r k ∧ switchValue c r k ≤ 1 := by
  unfold switchValue sign
  grind

theorem value_switchVector {k : Nat} (inside : k < switchCount n c) :
    value (point r (switchVector c r)) (1 + 2 * n + k) = switchValue c r k := by
  rw [value_switch, value, switchVector]
  simp [inside]

theorem marks_switchVector (structural : c.isStructural = true) :
    Marks c r (point r (switchVector c r)) := by
  have count : (if c.pure then n else 0) + 2 * n ≤ switchCount n c := by
    simp [switchCount, structural]
  constructor <;> intro i inside
  · rw [takes, SeparationProgram.switches, Nat.add_assoc, value_switchVector (by omega),
      switchValue]
    grind
  · rw [puts, SeparationProgram.switches, Nat.add_assoc, Nat.add_assoc,
      value_switchVector (by omega), switchValue]
    grind

theorem conflictRows_switchVector (conflict : c.conflictFree = true) (positive : 0 < n)
    (connected : Connected c r) :
    ∀ row ∈ conflictRows n c, row.holds (point r (switchVector c r)) = true := by
  have structural : c.isStructural = true := by simp [NetClass.isStructural, conflict]
  apply (marks_switchVector structural).conflictRows_iff.2
  have count : (if c.pure then n else 0) + 2 * n < switchCount n c := by
    simp [switchCount, structural, conflict, positive]
  have switch : value (point r (switchVector c r)) (givesBack n c) =
      if r.consumers.length ≤ 1 then 0 else 1 := by
    rw [givesBack, SeparationProgram.switches, Nat.add_assoc, value_switchVector count, switchValue]
    grind
  have few := length_consumers_le r
  rw [switch]
  refine ⟨by split <;> omega, fun i inside => ?_⟩
  by_cases one : r.consumers.length ≤ 1
  · rw [if_pos one, sign, sign]; split <;> split <;> omega
  · rw [if_neg one]
    have back := (connected.conflictFree conflict).resolve_left one
    have gives : 0 < (r.weightAt i).backward → 0 < (r.weightAt i).forward :=
      fun takes => (mem_producers.1 (back i (mem_consumers.2 ⟨inside, takes⟩))).2
    rw [sign, sign]
    split <;> split <;> omega

include within

theorem purityRows_switchVector (pure : c.pure = true) (isPure : r.isPure = true) :
    ∀ row ∈ purityRows n bound, row.holds (point r (switchVector c r)) = true := by
  apply purityRows_iff.2
  intro i inside
  have count : i < switchCount n c := by simp [switchCount, pure]; omega
  have switch : value (point r (switchVector c r)) (takesOnly n i) =
      sign (r.weightAt i).backward := by
    rw [takesOnly, value_switchVector count, switchValue]
    simp [pure, inside]
  rw [switch, value_backward inside, value_forward inside, sign]
  obtain ⟨takes, puts⟩ := within i inside
  have one := Region.isPure_iff.1 isPure i inside
  split <;> omega

theorem Connected.switched (connected : Connected c r) :
    Switched c bound r (switchVector c r) := by
  have range : ∀ k ∈ switchVector c r, 0 ≤ k ∧ k ≤ 1 := by
    intro k member
    obtain ⟨i, _, rfl⟩ := List.mem_map.1 member
    exact switchValue_range i
  refine ⟨by simp [switchVector], range, List.forall_mem_append.2 ⟨?_, ?_⟩⟩
  · cases pure : c.pure with
    | false => simp
    | true => exact purityRows_switchVector within pure (connected.pure pure)
  · refine forall_structuralRows.2 fun structural => ?_
    have marks : Marks c r (point r (switchVector c r)) := marks_switchVector structural
    refine ⟨(indicatorRows_iff within (value_eq_zero_or_one range)).2 marks, fun one => ?_,
      fun tNet => ?_, fun conflict positive => ?_⟩
    · rw [holds_upper, marks.dot_consumerForm]
      cases one with
      | inl tNet => have := (connected.tNet tNet).1; omega
      | inr branching => have := connected.outputNonbranching branching; omega
    · rw [holds_upper, marks.dot_producerForm]
      have := (connected.tNet tNet).2
      omega
    · exact conflictRows_switchVector conflict positive connected

end NetSynthesis.SeparationProgram
