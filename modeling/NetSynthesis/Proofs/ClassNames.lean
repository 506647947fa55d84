import Mathlib.Data.List.Basic
import Mathlib.Data.List.TakeDrop
import NetSynthesis.NetClass
import NetSynthesis.Proofs.ExceptSteps
import NetSynthesis.Proofs.PlainText

/-! The class that names stand for. Words that are listed in a text are found again whatever commas
and white space set them off, and in upper or lower case. A class is determined by its names, and
reading one of them adds it to the names of what has been read, so that reading all of them, in any
order and any number of times, gives the class. -/
namespace NetSynthesis.NetClass

variable {c d : NetClass} {gap word : List Char} {k j : Nat} {x : String}

/-! ### Listed words -/

/-- Nothing but commas and white space. -/
def IsGap (gap : List Char) : Prop := ∀ a ∈ gap, isSeparator a = true

/-- At least one character, and none that separates words. -/
def IsWord (word : List Char) : Prop := word ≠ [] ∧ ∀ a ∈ word, isSeparator a = false

instance (gap : List Char) : Decidable (IsGap gap) :=
  decidable_of_iff (gap.all isSeparator = true) (by simp [IsGap])

instance (word : List Char) : Decidable (IsWord word) :=
  decidable_of_iff (word ≠ [] ∧ word.all (!isSeparator ·) = true) (by simp [IsWord])

theorem isSeparator_iff {a : Char} : isSeparator a = true ↔ a = ',' ∨ Text.isBlank a = true := by
  simp [isSeparator]

theorem pieces_gap (isGap : IsGap gap) (text : List Char) :
    pieces (gap ++ text) = List.replicate gap.length [] ++ pieces text := by
  induction gap with
  | nil => rfl
  | cons a gap ih =>
    obtain ⟨first, rest⟩ := List.forall_mem_cons.1 isGap
    rw [List.cons_append, pieces, if_pos first, ih rest]
    rfl

theorem names_gap (isGap : IsGap gap) (text : List Char) : names (gap ++ text) = names text := by
  rw [names, pieces_gap isGap, List.filter_append]
  simp [names]

theorem pieces_word (inside : ∀ a ∈ word, isSeparator a = false) :
    pieces word = [word] := by
  induction word with
  | nil => rfl
  | cons a word ih =>
    obtain ⟨first, rest⟩ := List.forall_mem_cons.1 inside
    rw [pieces, if_neg (by simp [first]), ih rest]

theorem pieces_word_append (inside : ∀ a ∈ word, isSeparator a = false) {s : Char}
    (separator : isSeparator s = true) (text : List Char) :
    pieces (word ++ s :: text) = word :: pieces text := by
  induction word with
  | nil => rw [List.nil_append, pieces, if_pos separator]
  | cons a word ih =>
    obtain ⟨first, rest⟩ := List.forall_mem_cons.1 inside
    rw [List.cons_append, pieces, if_neg (by simp [first]), ih rest]

theorem names_word (isWord : IsWord word) : names word = [word] := by
  rw [names, pieces_word isWord.2]
  simp [isWord.1]

theorem names_word_append (isWord : IsWord word) (isGap : IsGap gap) (some : gap ≠ [])
    (text : List Char) : names (word ++ (gap ++ text)) = word :: names text := by
  obtain ⟨s, gap, rfl⟩ := List.exists_cons_of_ne_nil some
  obtain ⟨first, rest⟩ := List.forall_mem_cons.1 isGap
  have split : names (word ++ (s :: gap ++ text)) = word :: names (gap ++ text) := by
    rw [names, List.cons_append, pieces_word_append isWord.2 first]
    simp [names, isWord.1]
  rw [split, names_gap rest]

/-- Words listed in a text: what stands before the first one, and each with what stands behind it.
No two words stand next to each other. -/
structure Listing where
  lead : List Char
  entries : List (List Char × List Char)
  lead_gap : IsGap lead
  gaps : ∀ e ∈ entries, IsGap e.2
  set_off : ∀ e ∈ entries.dropLast, e.2 ≠ []

namespace Listing

def words (l : Listing) : List (List Char) := l.entries.map (·.1)

def chars (l : Listing) : List Char := l.lead ++ l.entries.flatMap fun e => e.1 ++ e.2

/-- The listed words are found in their order. -/
theorem names_chars (l : Listing) (isWords : ∀ w ∈ l.words, IsWord w) :
    names l.chars = l.words := by
  obtain ⟨lead, entries, lead_gap, gaps, set_off⟩ := l
  simp only [chars, words] at isWords ⊢
  rw [names_gap lead_gap]
  induction entries with
  | nil => rfl
  | cons e entries ih =>
    obtain ⟨firstGap, gaps⟩ := List.forall_mem_cons.1 gaps
    obtain ⟨firstWord, isWords⟩ := List.forall_mem_cons.1 isWords
    rw [List.flatMap_cons, List.append_assoc, List.map_cons]
    cases entries with
    | nil =>
      rw [List.flatMap_nil]
      by_cases none : e.2 = []
      · simpa [none] using names_word firstWord
      · exact names_word_append firstWord firstGap none []
    | cons next entries =>
      rw [List.dropLast_cons_cons] at set_off
      obtain ⟨some, set_off⟩ := List.forall_mem_cons.1 set_off
      rw [names_word_append firstWord firstGap some, ih gaps set_off isWords]

def lower (l : Listing) : Listing where
  lead := l.lead
  entries := l.entries.map fun e => (e.1.map Char.toLower, e.2)
  lead_gap := l.lead_gap
  gaps := by
    rw [List.forall_mem_map]
    exact l.gaps
  set_off := by
    rw [← List.map_dropLast, List.forall_mem_map]
    exact l.set_off

theorem words_lower (l : Listing) : l.lower.words = l.words.map (·.map Char.toLower) := by
  simp [words, lower]

end Listing

theorem IsGap.map_toLower (isGap : IsGap gap) : gap.map Char.toLower = gap := by
  refine (List.map_congr_left fun a member => ?_).trans (List.map_id' gap)
  rcases isSeparator_iff.1 (isGap a member) with rfl | blank
  · rfl
  · exact Text.toLower_of_isBlank blank

theorem IsGap.plain (isGap : IsGap gap) : ∀ a ∈ gap, Text.Plain a := by
  intro a member
  rcases isSeparator_iff.1 (isGap a member) with rfl | blank
  · exact .inl (by decide)
  · exact .inr blank

/-- Lower case changes the words and leaves what stands between them. -/
theorem Listing.lower_chars (l : Listing) (ascii : ∀ w ∈ l.words, Text.IsAscii w) :
    Text.lower l.chars = l.lower.chars := by
  have plain : ∀ a ∈ l.chars, Text.Plain a := by
    intro a member
    rcases List.mem_append.1 member with lead | listed
    · exact l.lead_gap.plain a lead
    · obtain ⟨e, entry, inside⟩ := List.mem_flatMap.1 listed
      rcases List.mem_append.1 inside with word | gap
      · exact .inl (ascii e.1 (List.mem_map_of_mem entry) a word)
      · exact (l.gaps e entry).plain a gap
  rw [Text.lower_of_plain plain, chars, chars, List.map_append, List.map_flatMap, lower,
    l.lead_gap.map_toLower, List.flatMap_map]
  congr 1
  refine List.flatMap_congr fun e entry => ?_
  rw [List.map_append, (l.gaps e entry).map_toLower]

/-! ### Printed names -/

theorem boundText_toList (differs : k ≠ 1) :
    (boundText k).toList = Nat.toDigits 10 k ++ "-bounded".toList := by
  rw [boundText, if_neg differs]
  simp [toString, Nat.repr]

theorem boundName?_boundText (differs : k ≠ 1) : boundName? (boundText k).toList = some k := by
  have digits : ∀ a ∈ Nat.toDigits 10 k, (Text.digitValue? a).isSome = true := by
    intro a member
    rw [Text.digitValue?_of_isDigit (Text.isDigit_of_mem_toDigits member)]
    rfl
  have rest : "-bounded".toList = '-' :: "bounded".toList := by decide
  have stops : (Text.digitValue? '-').isSome = false := by decide +kernel
  rw [boundName?, boundText_toList differs, List.span_eq_takeWhile_dropWhile]
  simp only [List.takeWhile_append_of_pos digits, List.dropWhile_append_of_pos digits, rest,
    List.takeWhile_cons, List.dropWhile_cons, stops, Bool.false_eq_true, if_false, List.append_nil,
    if_true]
  exact Text.decimal?_toDigits k

/-- The names of the properties other than a bound. -/
def flagNames : List String := ["pure", "plain", "tnet", "output-nonbranching", "conflict-free"]

def flags (c : NetClass) : List (String × Bool) :=
  [("pure", c.pure), ("plain", c.plain), ("tnet", c.tNet),
    ("output-nonbranching", c.outputNonbranching), ("conflict-free", c.conflictFree)]

theorem mem_textNames : x ∈ c.textNames ↔
    (∃ k, c.bound = some k ∧ boundText k = x) ∨ (x, true) ∈ c.flags := by
  simp [textNames, flags, and_comm (a := x = _), @eq_comm _ true]

theorem map_flags (c : NetClass) : c.flags.map (·.1) = flagNames := rfl

theorem mem_flagNames (flag : (x, true) ∈ c.flags) : x ∈ flagNames := by
  rw [← c.map_flags]
  exact List.mem_map_of_mem flag

def fixedNames : List String := ["none", "safe", "t-net", "on", "cf"] ++ flagNames

theorem boundText_not_mem_fixedNames (differs : k ≠ 1) : boundText k ∉ fixedNames := by
  intro member
  have unnumbered : ∀ x ∈ fixedNames, boundName? x.toList = none := by decide +kernel
  have numbered := boundName?_boundText differs
  rw [unnumbered _ member] at numbered
  simp at numbered

theorem boundText_not_mem_flagNames : boundText k ∉ flagNames := by
  by_cases one : k = 1
  · subst one
    decide
  · exact fun member => boundText_not_mem_fixedNames one (List.mem_append_right _ member)

theorem boundText_injective (same : boundText j = boundText k) : j = k := by
  have safe : boundText 1 ∈ fixedNames := by decide
  by_cases first : j = 1
  · by_cases second : k = 1
    · rw [first, second]
    · rw [first] at same
      exact absurd (same ▸ safe) (boundText_not_mem_fixedNames second)
  · by_cases second : k = 1
    · rw [second] at same
      exact absurd (same ▸ safe) (boundText_not_mem_fixedNames first)
    · have numbered := boundName?_boundText first
      rw [same, boundName?_boundText second] at numbered
      exact (Option.some.inj numbered).symm

theorem boundText_mem_textNames : boundText k ∈ c.textNames ↔ c.bound = some k := by
  rw [mem_textNames]
  constructor
  · rintro (⟨j, bound, same⟩ | flag)
    · rw [bound, boundText_injective same]
    · exact absurd (mem_flagNames flag) boundText_not_mem_flagNames
  · exact fun bound => .inl ⟨k, bound, rfl⟩

theorem flag_mem_textNames (flag : x ∈ flagNames) : x ∈ c.textNames ↔ (x, true) ∈ c.flags := by
  rw [mem_textNames, or_iff_right]
  rintro ⟨k, _, rfl⟩
  exact boundText_not_mem_flagNames flag

/-- A class is determined by its names. -/
theorem eq_of_textNames (same : ∀ x, x ∈ d.textNames ↔ x ∈ c.textNames) : d = c := by
  have bound : d.bound = c.bound := by
    ext k
    rw [← boundText_mem_textNames, same, boundText_mem_textNames]
  have flags : ∀ x ∈ flagNames, ((x, true) ∈ d.flags ↔ (x, true) ∈ c.flags) := by
    intro x flag
    rw [← flag_mem_textNames flag, same, flag_mem_textNames flag]
  obtain ⟨_, _, _, _, _, _, _⟩ := d
  obtain ⟨_, _, _, _, _, _, _⟩ := c
  obtain rfl := bound
  simpa [flagNames, NetClass.flags] using flags

/-! ### Reading names -/

theorem addName_boundText (positive : 0 < k) (d : NetClass) : ∃ d',
    addName d (boundText k).toList = .ok d' ∧ d'.bound = some k ∧ d'.flags = d.flags := by
  by_cases one : k = 1
  · subst one
    exact ⟨{ d with bound := some 1, bound_pos := by simp }, rfl, rfl, rfl⟩
  · have other := boundText_not_mem_fixedNames one
    simp only [fixedNames, flagNames, List.cons_append, List.nil_append, List.mem_cons,
      not_or] at other
    refine ⟨{ d with bound := some k, bound_pos := by simpa using positive }, ?_, rfl, rfl⟩
    simp [addName, other, boundName?_boundText one, withBound, positive]

/-- The properties with one more of them asked for. -/
def raise (x : String) (flags : List (String × Bool)) : List (String × Bool) :=
  flags.map fun f => if f.1 = x then (x, true) else f

theorem addName_flag (flag : x ∈ flagNames) (d : NetClass) : ∃ d',
    addName d x.toList = .ok d' ∧ d'.bound = d.bound ∧ d'.flags = raise x d.flags := by
  simp only [flagNames, List.mem_cons, List.not_mem_nil, or_false] at flag
  rcases flag with rfl | rfl | rfl | rfl | rfl
  · exact ⟨{ d with pure := true }, rfl, rfl, rfl⟩
  · exact ⟨{ d with plain := true }, rfl, rfl, rfl⟩
  · exact ⟨{ d with tNet := true }, rfl, rfl, rfl⟩
  · exact ⟨{ d with outputNonbranching := true }, rfl, rfl, rfl⟩
  · exact ⟨{ d with conflictFree := true }, rfl, rfl, rfl⟩

theorem mem_raise_flags (flag : x ∈ flagNames) {y : String} :
    (y, true) ∈ raise x d.flags ↔ y = x ∨ (y, true) ∈ d.flags := by
  rw [raise, List.mem_map]
  constructor
  · rintro ⟨f, member, same⟩
    split at same
    · exact .inl (Prod.mk.inj same).1.symm
    · exact .inr (same ▸ member)
  · rintro (rfl | member)
    · rw [← d.map_flags] at flag
      obtain ⟨f, member, key⟩ := List.mem_map.1 flag
      exact ⟨f, member, if_pos key⟩
    · refine ⟨(y, true), member, ?_⟩
      split
      · rename_i key
        rw [← key]
      · rfl

/-- Of a class that has some names of another one, reading one more of these makes one that has this
name too. -/
theorem addName_of_mem (member : x ∈ c.textNames) (within : ∀ y ∈ d.textNames, y ∈ c.textNames) :
    ∃ d', addName d x.toList = .ok d' ∧ ∀ y, y ∈ d'.textNames ↔ y = x ∨ y ∈ d.textNames := by
  rcases mem_textNames.1 member with ⟨k, bound, rfl⟩ | flag
  · obtain ⟨d', added, bound', flags⟩ := addName_boundText (c.bound_pos k bound) d
    refine ⟨d', added, fun y => ?_⟩
    -- a bound that was read before is the same one, since the class has no other
    have before : ∀ j, d.bound = some j → j = k := by
      intro j old
      have known := within _ (boundText_mem_textNames.2 old)
      rw [boundText_mem_textNames, bound] at known
      exact (Option.some.inj known).symm
    rw [mem_textNames, mem_textNames, bound', flags]
    constructor
    · rintro (⟨j, same, rfl⟩ | flag)
      · exact .inl (congrArg boundText (Option.some.inj same).symm)
      · exact .inr (.inr flag)
    · rintro (rfl | ⟨j, old, rfl⟩ | flag)
      · exact .inl ⟨k, rfl, rfl⟩
      · exact .inl ⟨k, rfl, by rw [before j old]⟩
      · exact .inr flag
  · obtain ⟨d', added, bound, flags⟩ := addName_flag (mem_flagNames flag) d
    refine ⟨d', added, fun y => ?_⟩
    rw [mem_textNames, mem_textNames, bound, flags, mem_raise_flags (mem_flagNames flag)]
    exact or_left_comm

theorem foldlM_addName {xs : List String} (members : ∀ x ∈ xs, x ∈ c.textNames)
    (within : ∀ y ∈ d.textNames, y ∈ c.textNames) :
    ∃ d', (xs.map String.toList).foldlM addName d = .ok d' ∧
      ∀ y, y ∈ d'.textNames ↔ y ∈ xs ∨ y ∈ d.textNames := by
  induction xs generalizing d with
  | nil => exact ⟨d, rfl, by simp⟩
  | cons x xs ih =>
    obtain ⟨first, rest⟩ := List.forall_mem_cons.1 members
    obtain ⟨d₁, added, more⟩ := addName_of_mem first within
    have within₁ : ∀ y ∈ d₁.textNames, y ∈ c.textNames := by
      intro y member
      rcases (more y).1 member with rfl | old
      · exact first
      · exact within y old
    obtain ⟨d', read, all⟩ := ih rest within₁
    refine ⟨d', ?_, fun y => ?_⟩
    · rw [List.map_cons, List.foldlM_cons]
      exact bind_eq_ok.2 ⟨d₁, added, read⟩
    · rw [all, more, List.mem_cons, or_left_comm, or_assoc]

theorem textNames_all (x : String) : x ∉ all.textNames := by
  simp [all, textNames]

theorem foldlM_addName_eq {xs : List String} (same : ∀ x, x ∈ xs ↔ x ∈ c.textNames) :
    (xs.map String.toList).foldlM addName {} = .ok c := by
  obtain ⟨d, read, names⟩ := foldlM_addName (d := all) (fun x member => (same x).1 member)
    (fun y member => absurd member (textNames_all y))
  have equal : d = c := by
    apply eq_of_textNames
    intro x
    rw [names, same, or_iff_left (textNames_all x)]
  rwa [equal] at read

theorem isSeparator_of_isDigit {a : Char} (digit : a.isDigit = true) : isSeparator a = false := by
  rw [Bool.eq_false_iff]
  intro separator
  rcases isSeparator_iff.1 separator with rfl | blank
  · revert digit
    decide
  · have number := Text.toNat_of_isDigit digit
    have bounds := Text.isBlank_bounds blank
    omega

theorem isWord_of_mem_textNames (member : x ∈ c.textNames) :
    IsWord x.toList ∧ Text.IsAscii x.toList := by
  rcases mem_textNames.1 member with ⟨k, _, rfl⟩ | flag
  · by_cases one : k = 1
    · subst one
      decide
    · have stem : IsWord "-bounded".toList ∧ Text.IsAscii "-bounded".toList := by decide
      have digits : ∀ a ∈ Nat.toDigits 10 k, isSeparator a = false ∧ a.toNat < 128 := by
        intro a inside
        have digit := Text.isDigit_of_mem_toDigits inside
        have number := Text.toNat_of_isDigit digit
        exact ⟨isSeparator_of_isDigit digit, by omega⟩
      rw [boundText_toList one]
      refine ⟨⟨by simp [Nat.toDigits_ne_nil], ?_⟩, ?_⟩
      · exact List.forall_mem_append.2 ⟨fun a inside => (digits a inside).1, stem.1.2⟩
      · exact List.forall_mem_append.2 ⟨fun a inside => (digits a inside).2, stem.2⟩
  · have words : ∀ x ∈ flagNames, IsWord x.toList ∧ Text.IsAscii x.toList := by decide
    exact words x (mem_flagNames flag)

/-- A text of names of a class, each in upper or lower case and at least once, in any order, is read
as this class. -/
theorem Listing.parse_chars (l : Listing)
    (printed : ∀ w ∈ l.words, ∃ x ∈ c.textNames, w.map Char.toLower = x.toList)
    (complete : ∀ x ∈ c.textNames, ∃ w ∈ l.words, w.map Char.toLower = x.toList) :
    parse (String.ofList l.chars) = .ok c := by
  have ascii : ∀ w ∈ l.words, Text.IsAscii w := by
    intro w listed a inside
    obtain ⟨x, member, same⟩ := printed w listed
    apply Text.ascii_of_toLower
    exact (isWord_of_mem_textNames member).2 _ (same ▸ List.mem_map_of_mem inside)
  have lowered : ∀ w ∈ l.lower.words, ∃ x ∈ c.textNames, w = x.toList := by
    rw [l.words_lower, List.forall_mem_map]
    exact printed
  have isWords : ∀ w ∈ l.lower.words, IsWord w := by
    intro w listed
    obtain ⟨x, member, rfl⟩ := lowered w listed
    exact (isWord_of_mem_textNames member).1
  have texts : (l.lower.words.map String.ofList).map String.toList = l.lower.words := by
    simp [List.map_map, Function.comp_def]
  have same : ∀ x, x ∈ l.lower.words.map String.ofList ↔ x ∈ c.textNames := by
    intro x
    rw [List.mem_map]
    constructor
    · rintro ⟨w, listed, rfl⟩
      obtain ⟨x, member, rfl⟩ := lowered w listed
      rwa [String.ofList_toList]
    · intro member
      obtain ⟨w, listed, spelled⟩ := complete x member
      refine ⟨x.toList, ?_, String.ofList_toList⟩
      rw [l.words_lower, ← spelled]
      exact List.mem_map_of_mem listed
  rw [parse, String.toList_ofList, l.lower_chars ascii, l.lower.names_chars isWords, ← texts]
  exact foldlM_addName_eq same

/-! ### Printed classes -/

/-- Words with a comma and a space between any two. -/
def spaced : List (List Char) → List (List Char × List Char)
  | [] => []
  | [w] => [(w, [])]
  | w :: next :: rest => (w, ", ".toList) :: spaced (next :: rest)

theorem words_spaced (ws : List (List Char)) : (spaced ws).map (·.1) = ws := by
  fun_induction spaced ws with
  | case1 => rfl
  | case2 w => rfl
  | case3 w next rest ih => rw [List.map_cons, ih]

theorem chars_spaced (ws : List (List Char)) :
    (spaced ws).flatMap (fun e => e.1 ++ e.2) = ", ".toList.intercalate ws := by
  fun_induction spaced ws with
  | case1 => rfl
  | case2 w => simp
  | case3 w next rest ih => rw [List.flatMap_cons, ih, List.intercalate_cons_cons]

theorem gaps_spaced (ws : List (List Char)) : ∀ e ∈ spaced ws, IsGap e.2 := by
  fun_induction spaced ws with
  | case1 => simp
  | case2 w => simp [IsGap]
  | case3 w next rest ih =>
    have gap : IsGap ", ".toList := by decide
    exact List.forall_mem_cons.2 ⟨gap, ih⟩

theorem set_off_spaced (ws : List (List Char)) : ∀ e ∈ (spaced ws).dropLast, e.2 ≠ [] := by
  fun_induction spaced ws with
  | case1 => simp
  | case2 w => simp
  | case3 w next rest ih =>
    have some : spaced (next :: rest) ≠ [] := by
      intro none
      have words := words_spaced (next :: rest)
      simp [none] at words
    have separator : ", ".toList ≠ [] := by decide
    rw [List.dropLast_cons_of_ne_nil some]
    exact List.forall_mem_cons.2 ⟨separator, ih⟩

def printed (c : NetClass) : Listing where
  lead := []
  entries := spaced (c.textNames.map String.toList)
  lead_gap := by decide
  gaps := gaps_spaced _
  set_off := set_off_spaced _

theorem words_printed (c : NetClass) : c.printed.words = c.textNames.map String.toList :=
  words_spaced _

theorem text_eq (c : NetClass) : c.text = "[" ++ String.ofList c.printed.chars ++ "]" := by
  have inner : c.printed.chars = (", ".intercalate c.textNames).toList := by
    rw [String.toList_intercalate]
    exact chars_spaced _
  rw [inner, String.ofList_toList, text]

theorem map_toLower_of_mem_textNames (member : x ∈ c.textNames) :
    x.toList.map Char.toLower = x.toList := by
  rcases mem_textNames.1 member with ⟨k, _, rfl⟩ | flag
  · by_cases one : k = 1
    · subst one
      decide
    · rw [boundText_toList one, List.map_append]
      congr 1
      refine (List.map_congr_left fun a inside => ?_).trans (List.map_id' _)
      have number := Text.toNat_of_isDigit (Text.isDigit_of_mem_toDigits inside)
      exact (Text.toLower_cases a).resolve_right (by omega)
  · have words : ∀ x ∈ flagNames, x.toList.map Char.toLower = x.toList := by decide
    exact words x (mem_flagNames flag)

/-- What is printed of a class are its names between brackets. A text of these, each in upper or
lower case and at least once, in any order and with any commas and white space between them, before
and after, is read as this class, and so is what was printed. -/
theorem parse_listing (c : NetClass) (l : Listing)
    (printed : ∀ w ∈ l.words, ∃ x ∈ c.textNames, w.map Char.toLower = x.toList)
    (complete : ∀ x ∈ c.textNames, ∃ w ∈ l.words, w.map Char.toLower = x.toList) :
    (∃ inner : String, c.text = "[" ++ inner ++ "]" ∧
      names inner.toList = c.textNames.map String.toList ∧ parse inner = .ok c) ∧
    parse (String.ofList l.chars) = .ok c := by
  refine ⟨⟨_, c.text_eq, ?_, ?_⟩, l.parse_chars printed complete⟩
  · rw [String.toList_ofList, c.printed.names_chars, c.words_printed]
    rw [c.words_printed, List.forall_mem_map]
    exact fun x member => (isWord_of_mem_textNames member).1
  · have same {x : String} (member : x ∈ c.textNames) :
        x.toList ∈ c.printed.words ∧ x.toList.map Char.toLower = x.toList := by
      rw [c.words_printed]
      exact ⟨List.mem_map_of_mem member, map_toLower_of_mem_textNames member⟩
    refine c.printed.parse_chars ?_ fun x member => ⟨x.toList, same member⟩
    rw [c.words_printed, List.forall_mem_map]
    exact fun x member => ⟨x, member, (same member).2⟩

def boundedClass : NetClass where
  pure := true
  bound := some 12
  conflictFree := true
  bound_pos := fun _ bound => Option.some.inj bound ▸ Nat.succ_pos 11

/-- The names of the class, one of them twice, with all kinds of separators. -/
def scattered : Listing where
  lead := " ,".toList
  entries := [("PURE".toList, "\u2003".toList), ("12-Bounded".toList, ",\t,".toList),
    ("pure".toList, "\x1c".toList), ("conflict-FREE".toList, [])]
  lead_gap := by decide
  gaps := by decide
  set_off := by decide

theorem parse_scattered :
    String.ofList scattered.chars = " ,PURE\u200312-Bounded,\t,pure\x1cconflict-FREE" ∧
      parse " ,PURE\u200312-Bounded,\t,pure\x1cconflict-FREE" = .ok boundedClass ∧
        ∃ inner, boundedClass.text = "[" ++ inner ++ "]" ∧ parse inner = .ok boundedClass := by
  have chars : String.ofList scattered.chars =
      " ,PURE\u200312-Bounded,\t,pure\x1cconflict-FREE" := by
    decide +kernel
  obtain ⟨⟨inner, text, _, again⟩, read⟩ :=
    parse_listing boundedClass scattered (by decide +kernel) (by decide +kernel)
  exact ⟨chars, chars ▸ read, inner, text, again⟩

end NetSynthesis.NetClass
