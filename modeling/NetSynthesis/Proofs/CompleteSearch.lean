import NetSynthesis.Proofs.NetCompleteness
import NetSynthesis.Proofs.SearchedWords

/-! Completeness of the search for words. Up to any greatest length the search lists the solvable
words in normal form, or the unsolvable ones that have no unsolvable part, each once, and it counts
them for each length that it comes to. -/
namespace NetSynthesis.WordSearch

variable {solve : Solver} {c : NetClass} {alphabet letters : List Event} {w v : Word} {n : Nat}
  {p : Progress}

/-! ### Unsolvable words -/

/-- An unsolvable word with solvable parts: all its proper suffixes and, if the class has no bound,
all its proper factors. -/
structure MinimalUnsolvable (solve : Solver) (c : NetClass) (letters : List Event) (w : Word) :
    Prop where
  normalized : Normalized letters w
  unsolvable : isSolvable solve w c = .ok false
  suffixes : ∀ v, v <:+ w → v ≠ w → isSolvable solve v c = .ok true
  factors : c.bound = none → ∀ v, v <:+: w → v ≠ w → isSolvable solve v c = .ok true

/-- A proper factor leaves out the first letter or the last one. -/
theorem infix_tail_or_dropLast (part : v <:+: w) (proper : v ≠ w) :
    v <:+: w.tail ∨ v <:+: w.dropLast := by
  obtain ⟨before, behind, rfl⟩ := part
  cases before with
  | cons x before => exact .inl ⟨before, behind, rfl⟩
  | nil =>
    have some : behind ≠ [] := by
      rintro rfl
      simp at proper
    refine .inr ⟨[], behind.dropLast, ?_⟩
    rw [List.nil_append, List.dropLast_append_of_ne_nil some]

theorem minimalUnsolvable_iff (exactly : solve.Exact)
    (representable : c.Representable wordOptions.weightLimit) :
    MinimalUnsolvable solve c letters w ↔ Candidate c letters w ∧ ¬ Solvable c w := by
  constructor
  · rintro ⟨normalized, unsolvable, suffixes, factors⟩
    rw [isSolvable_eq_false_iff exactly representable] at unsolvable
    have nonempty : w ≠ [] := by
      rintro rfl
      exact unsolvable WordSolvable.nil
    have shorter : w.tail ≠ w ∧ w.dropLast ≠ w := by
      constructor <;> intro same <;> have length := congrArg List.length same <;>
        have := List.length_pos_iff.2 nonempty <;> simp at length <;> omega
    refine ⟨⟨normalized, nonempty, ?_, fun free => ?_⟩, unsolvable⟩
    · exact (isSolvable_iff exactly representable).1 (suffixes _ (List.tail_suffix w) shorter.1)
    · exact (isSolvable_iff exactly representable).1
        (factors free _ (List.dropLast_prefix w).isInfix shorter.2)
  · rintro ⟨⟨normalized, nonempty, tail, tried⟩, unsolvable⟩
    refine ⟨normalized, (isSolvable_eq_false_iff exactly representable).2 unsolvable,
      fun v end_of proper => ?_, fun free v part proper => ?_⟩ <;>
      rw [isSolvable_iff exactly representable]
    · cases w with
      | nil => exact absurd rfl nonempty
      | cons x w => exact tail.suffix ((List.suffix_cons_iff.1 end_of).resolve_left proper)
    · rcases infix_tail_or_dropLast part proper with inside | inside
      · exact tail.factor free inside
      · exact (tried free).factor free inside

/-! ### Texts -/

theorem join_injective (single : ∀ e ∈ w, e.length = 1) (single' : ∀ e ∈ v, e.length = 1)
    (same : String.join w = String.join v) : w = v := by
  have character {e : Event} (one : e.length = 1) : ∃ x, e.toList = [x] :=
    List.length_eq_one_iff.1 (String.length_toList.trans one)
  replace same := congrArg String.toList same
  simp only [String.toList_join] at same
  induction w generalizing v with
  | nil =>
    cases v with
    | nil => rfl
    | cons e v =>
      obtain ⟨x, one⟩ := character (single' e (by simp))
      simp [one] at same
  | cons d w ih =>
    obtain ⟨x, one⟩ := character (single d (by simp))
    cases v with
    | nil => simp [one] at same
    | cons e v =>
      obtain ⟨y, one'⟩ := character (single' e (by simp))
      rw [List.flatMap_cons, List.flatMap_cons, one, one'] at same
      obtain ⟨rfl, rest⟩ := List.cons.inj same
      have first : d = e := String.toList_injective (one.trans one'.symm)
      rw [first, ih (fun e member => single e (by simp [member]))
        (fun e member => single' e (by simp [member])) rest]

/-- Texts are those of the words with a property, each once. -/
def Lists (texts : List String) (P : Word → Prop) : Prop :=
  texts.Nodup ∧ ∃ ws : List Word, texts = ws.map String.join ∧ ∀ w, w ∈ ws ↔ P w

theorem lists_filter {seen : List (Word × Bool)} {P : Word → Prop} (good : Bool → Bool)
    (nodup : (seen.map (·.1)).Nodup) (single : ∀ w b, (w, b) ∈ seen → ∀ e ∈ w, e.length = 1)
    (means : ∀ w, (∃ b, (w, b) ∈ seen ∧ good b = true) ↔ P w) :
    Lists ((seen.filter fun q => good q.2).map fun q => String.join q.1) P := by
  have words : ((seen.filter fun q => good q.2).map (·.1)).Nodup :=
    nodup.sublist ((List.filter_sublist).map _)
  have texts : (seen.filter fun q => good q.2).map (fun q => String.join q.1) =
      ((seen.filter fun q => good q.2).map (·.1)).map String.join := by
    rw [List.map_map]
    rfl
  have letters {w : Word} (member : w ∈ (seen.filter fun q => good q.2).map (·.1)) :
      ∀ e ∈ w, e.length = 1 := by
    obtain ⟨⟨w, b⟩, known, rfl⟩ := List.mem_map.1 member
    exact single w b (List.mem_of_mem_filter known)
  refine ⟨texts ▸ List.Nodup.map_on (fun w hw v hv => join_injective (letters hw) (letters hv))
    words,
    _, texts, fun w => ?_⟩
  rw [← means]
  simp

/-! ### The search -/

/-- An outcome is complete: the words asked for are listed up to a greatest length, each once, and
every length with a solvable word one shorter has its numbers of words. -/
structure Outcome.Complete (o : Outcome) (solve : Solver) (longest : Int) : Prop where
  solvable : o.wanted = .solvable → Lists o.solvable fun w => Normalized o.letters w ∧ w ≠ [] ∧
    (w.length : Int) ≤ longest ∧ isSolvable solve w o.goal = .ok true
  unsolvable : o.wanted = .unsolvable → Lists o.unsolvable fun w =>
    MinimalUnsolvable solve o.goal o.letters w ∧ (w.length : Int) ≤ longest
  lengths_sorted : (o.levels.map (·.length)).Pairwise (· < ·)
  mem_lengths : ∀ n : Nat, n ∈ o.levels.map (·.length) ↔ (n : Int) ≤ longest ∧
    ∃ w, Normalized o.letters w ∧ w.length + 1 = n ∧ isSolvable solve w o.goal = .ok true
  counts_solvable : ∀ l ∈ o.levels, (l.solvable : ℕ∞) = { w | Normalized o.letters w ∧
    w.length = l.length ∧ isSolvable solve w o.goal = .ok true }.encard
  counts_unsolvable : ∀ l ∈ o.levels, (l.unsolvable : ℕ∞) =
    { w | MinimalUnsolvable solve o.goal o.letters w ∧ w.length = l.length }.encard

section Sorted

variable (sorted : Sorted letters)

include sorted

/-- Where no word of a length is solvable, no longer word is. -/
theorem length_lt_of_found_eq_nil (searched : Searched c letters n p) (empty : p.found = [])
    (normalized : Normalized letters w) (solvable : Solvable c w) : w.length < n := by
  by_contra long
  have end_of := List.drop_suffix (w.length - n) w
  have member : w.drop (w.length - n) ∈ p.found :=
    (searched.found.mem_iff _).2 ⟨normalized.suffix sorted end_of, by simp; omega,
      solvable.suffix end_of⟩
  simp [empty] at member

section Ended

variable {longest : Int} (searched : Searched c letters n p)
  (ended : p.found = [] ∨ n = longest.toNat)

include searched ended

theorem Searched.length_lt (normalized : Normalized letters w) (solvable : Solvable c w)
    (fits : (w.length + 1 : Int) ≤ longest) : w.length < n := by
  rcases ended with empty | rfl
  · exact length_lt_of_found_eq_nil sorted searched empty normalized solvable
  · omega

variable (bound : n ≤ longest.toNat)

include bound

theorem Searched.length_le_iff (candidate : Candidate c letters w) :
    w.length ≤ n ↔ (w.length : Int) ≤ longest := by
  have positive := List.length_pos_iff.2 candidate.nonempty
  refine ⟨fun reached => by omega, fun fits => ?_⟩
  have tail := searched.length_lt sorted ended
    (candidate.normalized.suffix sorted (List.tail_suffix w)) candidate.tail (by simp; omega)
  rw [List.length_tail] at tail
  omega

/-- The solvable words are those that a search for solvable words keeps. -/
theorem Searched.exists_solvable_iff : (∃ b, (w, b) ∈ p.seen ∧ b = true) ↔
    Normalized letters w ∧ w ≠ [] ∧ (w.length : Int) ≤ longest ∧ Solvable c w := by
  simp only [searched.mem_seen]
  constructor
  · rintro ⟨b, ⟨candidate, reached, means⟩, rfl⟩
    exact ⟨candidate.normalized, candidate.nonempty,
      (searched.length_le_iff sorted ended bound candidate).1 reached, means.1 rfl⟩
  · rintro ⟨normalized, nonempty, fits, solvable⟩
    have candidate := solvable.candidate normalized nonempty
    exact ⟨true, ⟨candidate, (searched.length_le_iff sorted ended bound candidate).2 fits,
      iff_of_true rfl solvable⟩, rfl⟩

theorem Searched.exists_unsolvable_iff : (∃ b, (w, b) ∈ p.seen ∧ (!b) = true) ↔
    (Candidate c letters w ∧ ¬ Solvable c w) ∧ (w.length : Int) ≤ longest := by
  simp only [searched.mem_seen, Bool.not_eq_true']
  constructor
  · rintro ⟨b, ⟨candidate, reached, means⟩, rfl⟩
    exact ⟨⟨candidate, fun solvable => Bool.false_ne_true (means.2 solvable)⟩,
      (searched.length_le_iff sorted ended bound candidate).1 reached⟩
  · rintro ⟨⟨candidate, unsolvable⟩, fits⟩
    exact ⟨false, ⟨candidate, (searched.length_le_iff sorted ended bound candidate).2 fits,
      by simp [unsolvable]⟩, rfl⟩

theorem Searched.mem_lengths (k : Nat) : k ∈ p.levels.map (·.length) ↔ (k : Int) ≤ longest ∧
    ∃ w, Normalized letters w ∧ w.length + 1 = k ∧ Solvable c w := by
  rw [searched.lengths, List.mem_range'_1]
  constructor
  · rintro ⟨positive, reached⟩
    refine ⟨by omega, ?_⟩
    obtain none | ⟨w, normalized, length, solvable⟩ := searched.reached
    · omega
    · have end_of := List.drop_suffix (w.length + 1 - k) w
      exact ⟨_, normalized.suffix sorted end_of, by simp; omega, solvable.suffix end_of⟩
  · rintro ⟨fits, w, normalized, rfl, solvable⟩
    have := searched.length_lt sorted ended normalized solvable (by omega)
    omega

theorem Searched.complete (single : ∀ l ∈ letters, l.length = 1) (exactly : solve.Exact)
    (representable : c.Representable wordOptions.weightLimit)
    (wanted : Wanted) : Outcome.Complete ⟨c, letters, wanted, p.seen, p.levels⟩ solve longest := by
  have characters (w : Word) (b : Bool) (member : (w, b) ∈ p.seen) : ∀ e ∈ w, e.length = 1 :=
    fun e inside =>
      single e (((searched.mem_seen w b).1 member).1.normalized.among e inside)
  refine ⟨fun asked => ?_, fun asked => ?_, ?_, fun k => ?_, fun l member => ?_, fun l member => ?_⟩
  · dsimp only at asked
    rw [Outcome.solvable, if_pos asked]
    refine lists_filter id searched.nodup characters fun w => ?_
    simp only [isSolvable_iff exactly representable]
    exact searched.exists_solvable_iff sorted ended bound
  · dsimp only at asked
    rw [Outcome.unsolvable, if_pos asked]
    refine lists_filter not searched.nodup characters fun w => ?_
    simp only [minimalUnsolvable_iff exactly representable]
    exact searched.exists_unsolvable_iff sorted ended bound
  · rw [searched.lengths]
    exact List.pairwise_lt_range'
  · simp only [isSolvable_iff exactly representable]
    exact searched.mem_lengths sorted ended bound k
  · simp only [isSolvable_iff exactly representable]
    exact (searched.counts l member).solvable
  · rw [(searched.counts l member).unsolvable]
    simp only [minimalUnsolvable_iff exactly representable, and_right_comm, and_assoc]

end Ended

end Sorted

/-- The letters of an alphabet in order, each once. -/
theorem sorted_foldl_insertSorted (alphabet : List Event) :
    Sorted (alphabet.foldl (fun ls l => insertSorted l ls) []) ∧
      ∀ l, l ∈ alphabet.foldl (fun ls l => insertSorted l ls) [] ↔ l ∈ alphabet := by
  have general (ls : List Event) (sorted : Sorted ls) :
      Sorted (alphabet.foldl (fun ls l => insertSorted l ls) ls) ∧
        ∀ l, l ∈ alphabet.foldl (fun ls l => insertSorted l ls) ls ↔ l ∈ alphabet ∨ l ∈ ls := by
    induction alphabet generalizing ls with
    | nil => exact ⟨sorted, by simp⟩
    | cons x alphabet ih =>
      obtain ⟨sorted, members⟩ := ih _ (insertSorted_pairwise sorted)
      refine ⟨sorted, fun l => ?_⟩
      rw [List.foldl_cons, members, mem_insertSorted, List.mem_cons]
      exact ⟨by tauto, by tauto⟩
  simpa using general [] .nil

end NetSynthesis.WordSearch
