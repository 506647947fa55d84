import NetSynthesis.Proofs.NormalWords
import NetSynthesis.Proofs.SolvableWords

/-! The search for words. Each length is made from the solvable words of the length before, and
since suffixes of solvable words are solvable, and prefixes too where there is no bound, no word is
missed: neither by the words that are left out for an unsolvable prefix, nor by the end of the
search at a length without solvable words. No word is looked at twice, since each is an extension of
one word only. -/
namespace NetSynthesis.WordSearch

variable {solve : Solver} {c : NetClass} {letters : List Event} {w v : Word}
  {previous ws : List Word} {n : Nat} {p : Progress}

/-- The word can be solved within the weights that a search allows. -/
def Solvable (c : NetClass) (w : Word) : Prop := WordSolvable c wordOptions.weightLimit w

section Exact

variable (exactly : solve.Exact) (representable : c.Representable wordOptions.weightLimit)

include exactly representable

open Classical in
theorem isSolvable_eq_decide (w : Word) :
    isSolvable solve w c = .ok (decide (Solvable c w)) := by
  obtain ⟨b, answer, means⟩ := isSolvable_eq exactly representable (o := wordOptions) rfl w
  rw [answer, Except.ok.injEq]
  exact Bool.eq_iff_iff.2 (means.trans decide_eq_true_iff.symm)

theorem isSolvable_iff : isSolvable solve w c = .ok true ↔ Solvable c w :=
  isSolvable_eq_true_iff exactly representable rfl

theorem isSolvable_eq_false_iff : isSolvable solve w c = .ok false ↔ ¬ Solvable c w := by
  simp [isSolvable_eq_decide exactly representable]

end Exact

/-! ### Closure -/

theorem Solvable.suffix (solvable : Solvable c w) (end_of : v <:+ w) : Solvable c v := by
  obtain ⟨u, rfl⟩ := end_of
  exact WordSolvable.suffix solvable

theorem Solvable.take (free : c.bound = none) (solvable : Solvable c w) (start_of : v <+: w) :
    Solvable c v := by
  obtain ⟨u, rfl⟩ := start_of
  induction u using List.reverseRecOn with
  | nil => simpa using solvable
  | append_singleton u x ih =>
    rw [← List.append_assoc] at solvable
    exact ih (WordSolvable.dropLast free wordOptions.weightLimit_pos solvable)

theorem Solvable.factor (free : c.bound = none) (solvable : Solvable c w) (part : v <:+: w) :
    Solvable c v := by
  obtain ⟨u, start_of, end_of⟩ := List.infix_iff_prefix_suffix.1 part
  exact (solvable.suffix end_of).take free start_of

theorem solvable_map_iff {σ : Event → Event} (injective : Set.InjOn σ { e | e ∈ w }) :
    Solvable c (w.map σ) ↔ Solvable c w :=
  WordSolvable.map_iff injective

/-! ### One length -/

/-- All solvable words of one length in normal form, each once. -/
structure IsLevel (c : NetClass) (letters : List Event) (n : Nat) (found : List Word) : Prop where
  nodup : found.Nodup
  mem_iff : ∀ w, w ∈ found ↔ Normalized letters w ∧ w.length = n ∧ Solvable c w

/-- The word is looked at if it is made: without a bound its longest prefix is solvable. -/
def Tried (c : NetClass) (w : Word) : Prop := c.bound = none → Solvable c w.dropLast

structure Candidate (c : NetClass) (letters : List Event) (w : Word) : Prop where
  normalized : Normalized letters w
  nonempty : w ≠ []
  tail : Solvable c w.tail
  tried : Tried c w

theorem Solvable.candidate (solvable : Solvable c w) (normalized : Normalized letters w)
    (nonempty : w ≠ []) : Candidate c letters w :=
  ⟨normalized, nonempty, solvable.suffix (List.tail_suffix w),
    fun free => solvable.take free (List.dropLast_prefix w)⟩

def extended (letters : List Event) (previous : List Word) : List Word :=
  previous.flatMap fun w => (extensions letters w).map (· :: w)

open Classical in
noncomputable def candidates (c : NetClass) (letters : List Event) (previous : List Word) :
    List Word :=
  (extended letters previous).filter fun w => Tried c w

section Sorted

variable (sorted : Sorted letters)

include sorted

namespace IsLevel

variable (previously : IsLevel c letters n previous)

include previously

theorem nodup_extended : (extended letters previous).Nodup := by
  rw [extended, List.nodup_flatMap]
  constructor
  · intro w member
    have normalized := ((previously.mem_iff w).1 member).1
    exact (normalized.extensions_nodup sorted).map fun x y same => (List.cons.inj same).1
  · refine previously.nodup.imp fun apart v first second => ?_
    obtain ⟨x, _, rfl⟩ := List.mem_map.1 first
    obtain ⟨y, _, same⟩ := List.mem_map.1 second
    exact apart (List.cons.inj same).2.symm

theorem mem_extended : w ∈ extended letters previous ↔
    Normalized letters w ∧ w.length = n + 1 ∧ Solvable c w.tail := by
  simp only [extended, List.mem_flatMap, List.mem_map, previously.mem_iff]
  constructor
  · rintro ⟨v, ⟨normalized, length, solvable⟩, x, extends_v, rfl⟩
    exact ⟨(normalized_cons sorted).2 ⟨normalized, extends_v⟩, by simp [length], solvable⟩
  · rintro ⟨normalized, length, solvable⟩
    cases w with
    | nil => simp at length
    | cons x v =>
      obtain ⟨shorter, extends_v⟩ := (normalized_cons sorted).1 normalized
      exact ⟨v, ⟨shorter, by simpa using length, solvable⟩, x, extends_v, rfl⟩

theorem nodup_candidates : (candidates c letters previous).Nodup :=
  (previously.nodup_extended sorted).filter _

open Classical in
/-- No candidate of the next length is missed. -/
theorem mem_candidates : w ∈ candidates c letters previous ↔
    Candidate c letters w ∧ w.length = n + 1 := by
  rw [candidates, List.mem_filter, previously.mem_extended sorted, decide_eq_true_eq]
  constructor
  · rintro ⟨⟨normalized, length, tail⟩, tried⟩
    exact ⟨⟨normalized, List.ne_nil_of_length_eq_add_one length, tail, tried⟩, length⟩
  · rintro ⟨⟨normalized, _, tail, tried⟩, length⟩
    exact ⟨⟨normalized, length, tail⟩, tried⟩

open Classical in
theorem filter_candidates :
    IsLevel c letters (n + 1) ((candidates c letters previous).filter fun w => Solvable c w) := by
  refine ⟨(previously.nodup_candidates sorted).filter _, fun w => ?_⟩
  rw [List.mem_filter, previously.mem_candidates sorted, decide_eq_true_eq]
  constructor
  · rintro ⟨⟨candidate, length⟩, solvable⟩
    exact ⟨candidate.normalized, length, solvable⟩
  · rintro ⟨normalized, length, solvable⟩
    exact ⟨⟨solvable.candidate normalized (List.ne_nil_of_length_eq_add_one length), length⟩,
      solvable⟩

variable (exactly : solve.Exact) (representable : c.Representable wordOptions.weightLimit)

include exactly representable

open Classical in
/-- A word is looked at just if it is to be tried, and then it is known whether it is solvable. -/
theorem examine_eq (normalized : Normalized letters w) (length : w.length = n + 1) (p : Progress) :
    examine solve c letters previous p w = .ok (if Tried c w then
      { p with
        found := if Solvable c w then p.found ++ [w] else p.found
        seen := p.seen ++ [(w, decide (Solvable c w))] } else p) := by
  have among : ∀ e ∈ w.dropLast, e ∈ letters :=
    fun e member => normalized.among e ((List.dropLast_sublist w).subset member)
  obtain ⟨start, σ, normal, own, injective, rfl⟩ := exists_normalize sorted among
  have solved : w.dropLast.map σ ∈ previous ↔ Solvable c w.dropLast := by
    rw [previously.mem_iff, solvable_map_iff injective]
    exact ⟨fun found => found.2.2, fun solvable => ⟨own, by simp [length], solvable⟩⟩
  have tried : (c.bound.isSome || previous.contains (w.dropLast.map σ)) = true ↔ Tried c w := by
    rw [Bool.or_eq_true, List.contains_iff_mem, solved, Tried]
    cases c.bound <;> simp
  rw [examine, normal]
  simp only [bind, Except.bind, isSolvable_eq_decide exactly representable,
    decide_eq_true_eq, tried]
  split <;> rfl

open Classical in
theorem foldlM_examine (all : ∀ w ∈ ws, Normalized letters w ∧ w.length = n + 1) (p : Progress) :
    ws.foldlM (examine solve c letters previous) p = .ok { p with
      found := p.found ++ (ws.filter fun w => Tried c w).filter fun w => Solvable c w
      seen := p.seen ++ (ws.filter fun w => Tried c w).map
        fun w => (w, decide (Solvable c w)) } := by
  induction ws generalizing p with
  | nil => simp [pure, Except.pure]
  | cons w ws ih =>
    obtain ⟨⟨normalized, length⟩, rest⟩ := List.forall_mem_cons.1 all
    rw [List.foldlM_cons, previously.examine_eq sorted exactly representable normalized length]
    refine (ih rest _).trans ?_
    by_cases tried : Tried c w
    · by_cases solvable : Solvable c w <;> simp [tried, solvable]
    · simp [tried]

open Classical in
theorem level_eq (p : Progress) : level solve c letters (n + 1) previous p = .ok {
    found := (candidates c letters previous).filter fun w => Solvable c w
    seen := p.seen ++ (candidates c letters previous).map fun w => (w, decide (Solvable c w))
    levels := p.levels ++ [⟨n + 1,
      ((candidates c letters previous).filter fun w => Solvable c w).length,
      ((candidates c letters previous).filter fun w => ¬ Solvable c w).length⟩] } := by
  have all : ∀ w ∈ extended letters previous, Normalized letters w ∧ w.length = n + 1 := by
    intro w member
    obtain ⟨normalized, length, _⟩ := (previously.mem_extended sorted).1 member
    exact ⟨normalized, length⟩
  have run := previously.foldlM_examine sorted exactly representable all { p with found := [] }
  have parts := List.length_eq_length_filter_add (l := candidates c letters previous)
    fun w => decide (Solvable c w)
  refine bind_eq_ok.2 ⟨_, run, ?_⟩
  simp only [decide_not, List.nil_append, List.length_append, List.length_map]
  rw [← candidates, parts, Nat.add_sub_cancel_left, Nat.add_sub_cancel_left]
  rfl

end IsLevel

end Sorted

/-! ### All lengths -/

structure Counts (c : NetClass) (letters : List Event) (l : Level) : Prop where
  solvable : (l.solvable : ℕ∞) =
    { w | Normalized letters w ∧ w.length = l.length ∧ Solvable c w }.encard
  unsolvable : (l.unsolvable : ℕ∞) =
    { w | Candidate c letters w ∧ w.length = l.length ∧ ¬ Solvable c w }.encard

/-- What is known when all words up to a length have been looked at. -/
structure Searched (c : NetClass) (letters : List Event) (n : Nat) (p : Progress) : Prop where
  found : IsLevel c letters n p.found
  nodup : (p.seen.map (·.1)).Nodup
  mem_seen : ∀ w b, (w, b) ∈ p.seen ↔
    Candidate c letters w ∧ w.length ≤ n ∧ (b = true ↔ Solvable c w)
  lengths : p.levels.map (·.length) = List.range' 1 n
  counts : ∀ l ∈ p.levels, Counts c letters l
  reached : n = 0 ∨ ∃ w, Normalized letters w ∧ w.length + 1 = n ∧ Solvable c w

section Sorted

variable (sorted : Sorted letters)

include sorted

theorem searched_start : Searched c letters 0 { found := [[]] } := by
  refine ⟨⟨List.nodup_singleton _, fun w => ?_⟩, .nil, fun w b => ?_, rfl, by simp, .inl rfl⟩
  · rw [List.mem_singleton, List.length_eq_zero_iff]
    constructor
    · rintro rfl
      exact ⟨normalized_nil sorted, rfl, WordSolvable.nil⟩
    · exact fun ⟨_, empty, _⟩ => empty
  · simp only [List.not_mem_nil, false_iff, Nat.le_zero, List.length_eq_zero_iff]
    exact fun ⟨candidate, empty, _⟩ => candidate.nonempty empty

variable (exactly : solve.Exact) (representable : c.Representable wordOptions.weightLimit)

include exactly representable

theorem Searched.level (searched : Searched c letters n p) (some : p.found ≠ []) :
    ∃ p', level solve c letters (n + 1) p.found p = .ok p' ∧ Searched c letters (n + 1) p' := by
  classical
  have previously := searched.found
  have next := previously.filter_candidates sorted
  have nodup := previously.nodup_candidates sorted
  have member (w : Word) : w ∈ candidates c letters p.found ↔
      Candidate c letters w ∧ w.length = n + 1 := previously.mem_candidates sorted
  refine ⟨_, previously.level_eq sorted exactly representable p, next, ?_, fun w b => ?_, ?_,
    ?_, .inr ?_⟩
  · have words : ((candidates c letters p.found).map fun w => (w, decide (Solvable c w))).map
        (·.1) = candidates c letters p.found := by
      simp [Function.comp_def]
    rw [List.map_append, words]
    refine searched.nodup.append nodup fun w old new => ?_
    obtain ⟨⟨w, b⟩, before, rfl⟩ := List.mem_map.1 old
    have short := ((searched.mem_seen w b).1 before).2.1
    have long := ((member w).1 new).2
    omega
  · have now : (w, b) ∈ (candidates c letters p.found).map (fun w => (w, decide (Solvable c w))) ↔
        (Candidate c letters w ∧ w.length = n + 1) ∧ (b = true ↔ Solvable c w) := by
      rw [← member, List.mem_map]
      cases b <;> simp
    rw [List.mem_append, searched.mem_seen, now, Nat.le_succ_iff]
    simp only [and_or_left, or_and_right, and_assoc]
  · rw [List.map_append, searched.lengths, List.range'_concat]
    simp [Nat.add_comm]
  · intro l listed
    rcases List.mem_append.1 listed with old | new
    · exact searched.counts l old
    rw [List.mem_singleton.1 new]
    constructor
    · rw [← encard_of_nodup next.nodup]
      exact congrArg Set.encard (Set.ext next.mem_iff)
    · rw [← encard_of_nodup (nodup.filter _)]
      refine congrArg Set.encard (Set.ext fun w => ?_)
      simp [member, and_assoc]
  · obtain ⟨w, found⟩ := List.exists_mem_of_ne_nil _ some
    obtain ⟨normalized, length, solvable⟩ := (previously.mem_iff w).1 found
    exact ⟨w, normalized, by omega, solvable⟩

/-- The search goes on until no word of a length is solvable, or up to the greatest length. -/
theorem Searched.levels (searched : Searched c letters n p) (m : Nat) :
    ∃ k p', levels solve c letters m (n + 1) p = .ok p' ∧ Searched c letters k p' ∧
      k ≤ n + m ∧ (p'.found = [] ∨ k = n + m) := by
  induction m generalizing n p with
  | zero => exact ⟨n, p, rfl, searched, Nat.le_refl _, .inr rfl⟩
  | succ m ih =>
    rw [WordSearch.levels]
    split
    · rename_i empty
      exact ⟨n, p, rfl, searched, by omega, .inl (List.isEmpty_iff.1 empty)⟩
    · rename_i some
      obtain ⟨next, first, searched⟩ :=
        searched.level sorted exactly representable fun empty => some (by simp [empty])
      obtain ⟨k, p', rest, searched, bound, ended⟩ := ih searched
      exact ⟨k, p', bind_eq_ok.2 ⟨next, first, rest⟩, searched, by omega,
        ended.imp_right fun last => by omega⟩

end Sorted

end NetSynthesis.WordSearch
