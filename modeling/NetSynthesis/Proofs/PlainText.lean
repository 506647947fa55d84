import NetSynthesis.Text.Blank
import NetSynthesis.Text.DecimalDigit
import NetSynthesis.Text.LowerCase

/-! Plain text: ASCII characters and white space. In such a text no letter depends on its
neighbours, so that lower case is taken character by character, and white space stays as it is.
Whole numbers are printed in plain text, and their decimal digits are read back as the same
number. -/
namespace NetSynthesis.Text

variable {c : Char} {text : List Char}

/-! ### Lower case -/

/-- All characters are of ASCII. -/
def IsAscii (text : List Char) : Prop := ∀ c ∈ text, c.toNat < 128

instance (text : List Char) : Decidable (IsAscii text) :=
  decidable_of_iff (text.all (·.toNat < 128) = true) (by simp [IsAscii])

/-- A character of ASCII, or any white space. -/
def Plain (c : Char) : Prop := c.toNat < 128 ∨ isBlank c = true

def wideBlanks : List Nat := [0x85, 0xa0, 0x1680, 0x2000, 0x2001, 0x2002, 0x2003, 0x2004, 0x2005,
  0x2006, 0x2007, 0x2008, 0x2009, 0x200a, 0x2028, 0x2029, 0x202f, 0x205f, 0x3000]

theorem isBlank_cases (blank : isBlank c = true) : c.toNat ≤ 32 ∨ c.toNat ∈ wideBlanks := by
  simp only [isBlank, Bool.or_eq_true, Bool.and_eq_true, decide_eq_true_eq, beq_iff_eq] at blank
  simp only [wideBlanks, List.mem_cons, List.not_mem_nil, or_false]
  omega

theorem isBlank_bounds (blank : isBlank c = true) : c.toNat ≤ 32 ∨ 128 ≤ c.toNat := by
  have wide : ∀ n ∈ wideBlanks, 128 ≤ n := by decide
  exact (isBlank_cases blank).imp_right (wide c.toNat)

theorem toLower_cases (c : Char) : c.toLower = c ∨ 65 ≤ c.toNat ∧ c.toNat ≤ 90 := by
  by_cases capital : c.val ≥ 'A'.val ∧ c.val ≤ 'Z'.val
  · exact .inr ⟨UInt32.le_iff_toNat_le.1 capital.1, UInt32.le_iff_toNat_le.1 capital.2⟩
  · exact .inl (dif_neg capital)

theorem lowerChar_capital :
    ∀ n < 26, lowerChar (Char.ofNat (65 + n)) = [(Char.ofNat (65 + n)).toLower] := by
  decide +kernel

/-- All ranges of letters but the first one are beyond ASCII. -/
theorem lowerRanges_beyond : ∀ r ∈ lowerRanges.tail, 128 ≤ r.first := by
  decide +kernel

theorem lowerChar_ascii (ascii : c.toNat < 128) : lowerChar c = [c.toLower] := by
  by_cases capital : 65 ≤ c.toNat ∧ c.toNat ≤ 90
  · obtain ⟨n, place⟩ := Nat.exists_eq_add_of_le capital.1
    have known := lowerChar_capital n (by omega)
    rwa [← place, Char.ofNat_toNat] at known
  · have outside : ∀ r ∈ lowerRanges, ¬ (r.first ≤ c.toNat ∧ c.toNat ≤ r.last) := by
      intro r member
      have split : lowerRanges = ⟨65, 90, 1, 32⟩ :: lowerRanges.tail := rfl
      rw [split] at member
      rcases List.mem_cons.1 member with rfl | other
      · exact capital
      · have beyond := lowerRanges_beyond r other
        omega
    have undotted : c ≠ '\u0130' := by
      rintro rfl
      revert ascii
      decide
    rw [lowerChar, if_neg undotted, List.find?_eq_none.2,
      (toLower_cases c).resolve_right capital]
    intro r member
    simp [outside r member]

theorem lowerChar_wideBlanks :
    ∀ n ∈ wideBlanks, lowerChar (Char.ofNat n) = [(Char.ofNat n).toLower] := by
  decide +kernel

theorem Plain.lowerChar_eq (plain : Plain c) : lowerChar c = [c.toLower] := by
  rcases plain with ascii | blank
  · exact lowerChar_ascii ascii
  · rcases isBlank_cases blank with low | wide
    · exact lowerChar_ascii (by omega)
    · rw [← Char.ofNat_toNat c]
      exact lowerChar_wideBlanks c.toNat wide

/-- The sigma, whose lower case depends on its neighbours, is not plain. -/
theorem Plain.ne_sigma (plain : Plain c) : c ≠ 'Σ' := by
  rintro rfl
  rw [Plain] at plain
  revert plain
  decide

theorem lowerAfter_of_plain (plain : ∀ c ∈ text, Plain c) (before : List Char) :
    lowerAfter before text = text.map Char.toLower := by
  induction text generalizing before with
  | nil => rfl
  | cons c text ih =>
    obtain ⟨first, rest⟩ := List.forall_mem_cons.1 plain
    rw [lowerAfter, if_neg first.ne_sigma, first.lowerChar_eq, ih rest]
    rfl

theorem lower_of_plain (plain : ∀ c ∈ text, Plain c) : lower text = text.map Char.toLower :=
  lowerAfter_of_plain plain []

theorem ascii_of_toLower (ascii : c.toLower.toNat < 128) : c.toNat < 128 := by
  rcases toLower_cases c with same | capital
  · rwa [same] at ascii
  · omega

theorem toLower_of_isBlank (blank : isBlank c = true) : c.toLower = c := by
  rcases toLower_cases c with same | capital
  · exact same
  · have bounds := isBlank_bounds blank
    omega

/-! ### Decimal numbers -/

theorem toNat_of_isDigit (digit : c.isDigit = true) : 48 ≤ c.toNat ∧ c.toNat ≤ 57 := by
  simp only [Char.isDigit, Bool.and_eq_true, decide_eq_true_eq] at digit
  exact ⟨UInt32.le_iff_toNat_le.1 digit.1, UInt32.le_iff_toNat_le.1 digit.2⟩

theorem digitValue?_of_isDigit (digit : c.isDigit = true) :
    digitValue? c = some (c.toNat - '0'.toNat) := by
  obtain ⟨low, high⟩ := toNat_of_isDigit digit
  have zeros : digitZeros = '0'.toNat :: digitZeros.tail := rfl
  have first : '0'.toNat ≤ c.toNat ∧ c.toNat < '0'.toNat + 10 := by
    rw [show '0'.toNat = 48 from rfl]
    omega
  rw [digitValue?, zeros, List.find?_cons, decide_eq_true first.1, decide_eq_true first.2]
  rfl

theorem foldlM_digitValue? (digits : ∀ c ∈ text, c.isDigit = true) (n : Nat) :
    text.foldlM (fun value c => (digitValue? c).map (10 * value + ·)) n =
      some (Nat.ofDigitChars 10 text n) := by
  induction text generalizing n with
  | nil => rfl
  | cons c text ih =>
    obtain ⟨first, rest⟩ := List.forall_mem_cons.1 digits
    rw [List.foldlM_cons, digitValue?_of_isDigit first]
    exact ih rest _

theorem isDigit_of_mem_toDigits {k : Nat} (member : c ∈ Nat.toDigits 10 k) : c.isDigit = true :=
  Nat.isDigit_of_mem_toDigits (by decide) (by decide) member

theorem decimal?_toDigits (k : Nat) : decimal? (Nat.toDigits 10 k) = some k := by
  have some : (Nat.toDigits 10 k).isEmpty = false := by simp [Nat.toDigits_ne_nil]
  rw [decimal?, if_neg (by simp [some]), foldlM_digitValue? fun _ => isDigit_of_mem_toDigits,
    Nat.ofDigitChars_toDigits (by decide) (by decide)]

end NetSynthesis.Text
