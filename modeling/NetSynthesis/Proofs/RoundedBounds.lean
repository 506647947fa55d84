import Mathlib.Algebra.Order.Ring.Nat
import Mathlib.Tactic.ByContra
import NetSynthesis.Proofs.ExceptSteps
import NetSynthesis.Separation

/-! Which numbers double precision leaves as they are, and which it refuses. Up to `2 ^ 53` numbers
keep their values, so that the programs of a class with such bounds are those asked for; from
`2 ^ 1024 - 2 ^ 970` on there are no programs. -/
namespace NetSynthesis

namespace DoublePrecision

variable {unit k : Nat}

/-- The multiple is at most half a unit away, and it is even if it is half a unit away. -/
theorem exists_roundTo (positive : 0 < unit) (k : Nat) : ∃ q, roundTo unit k = q * unit ∧
    2 * k ≤ 2 * (q * unit) + unit ∧ 2 * (q * unit) ≤ 2 * k + unit ∧
    (2 * k = 2 * (q * unit) + unit ∨ 2 * (q * unit) = 2 * k + unit → q % 2 = 0) := by
  have whole : k / unit * unit + k % unit = k := Nat.div_add_mod' k unit
  have next : (k / unit + 1) * unit = k / unit * unit + unit := Nat.succ_mul ..
  have rest : k % unit < unit := Nat.mod_lt k positive
  rw [roundTo]
  split
  · exact ⟨k / unit + 1, rfl, by omega, by omega, by omega⟩
  · exact ⟨k / unit, rfl, by omega, by omega, by omega⟩

theorem roundTo_one (k : Nat) : roundTo 1 k = k := by
  simp [roundTo, Nat.mod_one]

theorem nearest_of_le (few : k ≤ 2 ^ 53) : nearest k = k := by
  rcases Nat.lt_or_eq_of_le few with less | rfl
  · have bits : k.log2 + 1 - 53 = 0 := by
      by_cases zero : k = 0
      · subst zero; rfl
      · have := (Nat.log2_lt zero).2 less
        omega
    rw [nearest, bits]
    exact roundTo_one k
  · decide

theorem ofNat_of_le (few : k ≤ 2 ^ 53) : ofNat k = .ok k := by
  have small : 2 ^ 53 < 2 ^ exponentLimit := Nat.pow_lt_pow_right (by decide) (by decide)
  rw [ofNat, nearest_of_le few, Nat.one_shiftLeft, if_pos (few.trans_lt small)]

theorem ofNat_eq_error {e : Error} (refused : ofNat k = .error e) :
    e = .doubleOverflow := by
  rw [ofNat] at refused
  split at refused
  · simp at refused
  · exact (Except.error.inj refused).symm

theorem log2_eq {n : Nat} (least : 2 ^ n ≤ k) (less : k < 2 ^ (n + 1)) : k.log2 = n := by
  have zero : k ≠ 0 := by have := Nat.two_pow_pos n; omega
  have := (Nat.log2_lt zero).2 less
  have := (Nat.le_log2 zero).2 least
  omega

theorem exists_nearest {e : Nat} (least : 2 ^ (e + 52) ≤ k) (less : k < 2 ^ (e + 53)) :
    ∃ q, nearest k = q * 2 ^ e ∧ 2 * k ≤ 2 * (q * 2 ^ e) + 2 ^ e ∧
      2 * (q * 2 ^ e) ≤ 2 * k + 2 ^ e ∧ 2 ^ 52 ≤ q ∧ q ≤ 2 ^ 53 ∧
      (2 * k = 2 * (q * 2 ^ e) + 2 ^ e ∨ 2 * (q * 2 ^ e) = 2 * k + 2 ^ e → q % 2 = 0) := by
  have unit : nearest k = roundTo (2 ^ e) k := by
    have bits : e + 52 + 1 - 53 = e := by omega
    rw [nearest, log2_eq least less, bits, Nat.one_shiftLeft]
  have positive := Nat.two_pow_pos e
  rw [Nat.pow_add] at least less
  obtain ⟨q, rounded, below, above, even⟩ := exists_roundTo positive k
  refine ⟨q, unit.trans rounded, below, above, ?_, ?_, even⟩
  · by_contra fewer
    have : (q + 1) * 2 ^ e ≤ 2 ^ 52 * 2 ^ e := Nat.mul_le_mul_right _ (by omega)
    rw [Nat.succ_mul] at this
    omega
  · by_contra more
    have : (2 ^ 53 + 1) * 2 ^ e ≤ q * 2 ^ e := Nat.mul_le_mul_right _ (by omega)
    rw [Nat.succ_mul] at this
    omega

theorem exists_exponent (many : 2 ^ 53 < k) : ∃ n, 2 ^ (n + 52) ≤ k ∧ k < 2 ^ (n + 53) := by
  have zero : k ≠ 0 := by omega
  have large := (Nat.le_log2 zero (k := 52)).2 (by omega)
  obtain ⟨n, bits⟩ : ∃ n, k.log2 = n + 52 := ⟨k.log2 - 52, by omega⟩
  exact ⟨n, bits ▸ Nat.log2_self_le zero, (Nat.log2_lt zero).1 (by omega)⟩

/-- Halfway between a power of two and the last number before it that has 53 bits, the power is the
even one of the two. -/
theorem nearest_lt_iff (e : Nat) : nearest k < 2 ^ (e + 54) ↔ k < 2 ^ (e + 54) - 2 ^ e := by
  have positive := Nat.two_pow_pos e
  have whole : 2 ^ (e + 54) = 2 ^ 54 * 2 ^ e := by rw [Nat.pow_add, Nat.mul_comm]
  by_cases few : k ≤ 2 ^ 53
  · rw [nearest_of_le few]
    omega
  obtain ⟨n, least, less⟩ := exists_exponent (Nat.lt_of_not_le few)
  obtain ⟨q, rounded, below, above, atLeast, atMost, even⟩ := exists_nearest least less
  have fine := Nat.two_pow_pos n
  rw [rounded]
  rw [Nat.pow_add] at least less
  rcases Nat.lt_trichotomy n (e + 1) with smaller | rfl | greater
  · have step : 2 * 2 ^ n ≤ 2 * 2 ^ e :=
      Nat.mul_le_mul_left _ (Nat.pow_le_pow_right (by decide) (by omega))
    have : q * 2 ^ n ≤ 2 ^ 53 * 2 ^ n := Nat.mul_le_mul_right _ atMost
    omega
  · have unit : 2 ^ (e + 1) = 2 * 2 ^ e := Nat.pow_succ'
    rw [unit] at below above even ⊢
    rcases Nat.lt_or_eq_of_le atMost with below | rfl
    · have : q * (2 * 2 ^ e) ≤ (2 ^ 53 - 1) * (2 * 2 ^ e) := Nat.mul_le_mul_right _ (by omega)
      rcases Nat.lt_or_eq_of_le (Nat.le_sub_one_of_lt below) with lower | rfl
      · have : q * (2 * 2 ^ e) ≤ (2 ^ 53 - 2) * (2 * 2 ^ e) := Nat.mul_le_mul_right _ (by omega)
        omega
      · omega
    · omega
  · have step : 4 * 2 ^ e ≤ 2 ^ n := by
      have : 2 ^ (2 + e) ≤ 2 ^ n := Nat.pow_le_pow_right (by decide) (by omega)
      rwa [Nat.pow_add] at this
    have : 2 ^ 52 * 2 ^ n ≤ q * 2 ^ n := Nat.mul_le_mul_right _ atLeast
    omega

/-- The numbers that are refused are those from halfway between the greatest double and the next
power of two on. -/
theorem ofNat_isOk_iff : (∃ d, ofNat k = .ok d) ↔
    k < 2 ^ exponentLimit - 2 ^ (exponentLimit - 54) := by
  obtain ⟨e, limit⟩ : ∃ e, exponentLimit = e + 54 := ⟨970, rfl⟩
  rw [ofNat, Nat.one_shiftLeft, limit, Nat.add_sub_cancel, ← nearest_lt_iff]
  split <;> simp_all

end DoublePrecision

open DoublePrecision SeparationProgram

variable {f : Frame} {c : NetClass} {limit : Nat} {consumers : Option (List Nat)}

theorem ProgramBounds.rounded_eq_ok {b : ProgramBounds} : rounded c limit = .ok b ↔
    c.bound.mapM ofNat = .ok b.tokens ∧ ofNat (weightBound c limit) = .ok b.weight := by
  simp only [rounded, bind_eq_ok, pure_eq_ok]
  constructor
  · rintro ⟨tokens, first, weight, second, rfl⟩
    exact ⟨first, second⟩
  · rintro ⟨first, second⟩
    exact ⟨_, first, _, second, rfl⟩

theorem mapM_some_isOk_iff {x : Option Nat} :
    (∃ y, x.mapM ofNat = .ok y) ↔ ∀ k ∈ x, ∃ d, ofNat k = .ok d := by
  cases x with
  | none => exact iff_of_true ⟨none, rfl⟩ (by simp)
  | some k => cases converted : ofNat k <;> simp [converted, Functor.map, Except.map]

namespace NetClass

/-- The bounds of programs are numbers of double precision, perhaps rounded. -/
def Convertible (c : NetClass) (limit : Nat) : Prop :=
  ∃ b, ProgramBounds.rounded c limit = .ok b

/-- The bounds of programs are not changed by double precision. -/
def Representable (c : NetClass) (limit : Nat) : Prop :=
  ProgramBounds.rounded c limit = .ok (.asked c limit)

theorem Representable.convertible (representable : c.Representable limit) :
    c.Convertible limit :=
  ⟨_, representable⟩

theorem convertible_iff : c.Convertible limit ↔
    (∀ k ∈ c.bound, k < 2 ^ exponentLimit - 2 ^ (exponentLimit - 54)) ∧
      weightBound c limit < 2 ^ exponentLimit - 2 ^ (exponentLimit - 54) := by
  simp only [← ofNat_isOk_iff, ← mapM_some_isOk_iff, Convertible, ProgramBounds.rounded_eq_ok]
  constructor
  · rintro ⟨b, tokens, weight⟩
    exact ⟨⟨_, tokens⟩, _, weight⟩
  · rintro ⟨⟨tokens, first⟩, weight, second⟩
    exact ⟨⟨tokens, weight⟩, first, second⟩

theorem representable_of_le (tokens : ∀ k ∈ c.bound, k ≤ 2 ^ 53) (weight : limit ≤ 2 ^ 53) :
    c.Representable limit := by
  have light : weightBound c limit ≤ 2 ^ 53 := by rw [weightBound]; split <;> omega
  refine ProgramBounds.rounded_eq_ok.2 ⟨?_, ofNat_of_le light⟩
  rw [ProgramBounds.asked]
  cases bound : c.bound with
  | none => rfl
  | some k => rw [Option.mapM_some, ofNat_of_le (tokens k bound)]; rfl

end NetClass

/-- There is only one way not to be convertible. -/
theorem rounded_of_not_convertible (beyond : ¬ c.Convertible limit) :
    ProgramBounds.rounded c limit = .error .doubleOverflow := by
  cases result : ProgramBounds.rounded c limit with
  | ok b => exact absurd ⟨b, result⟩ beyond
  | error e =>
    congr 1
    rcases bind_eq_error.1 result with refused | ⟨_, _, rest⟩
    · cases bound : c.bound with
      | none => simp [bound, pure, Except.pure] at refused
      | some k =>
        rw [bound, Option.mapM_some] at refused
        exact ofNat_eq_error (map_eq_error.1 refused)
    · rcases bind_eq_error.1 rest with refused | ⟨_, _, last⟩
      · exact ofNat_eq_error refused
      · simp [pure, Except.pure] at last

/-! ### Programs -/

namespace Frame

/-- The program with the bounds asked for. -/
def exactProgram (f : Frame) (c : NetClass) (limit : Nat) (consumers : Option (List Nat)) :
    IntegerProgram :=
  f.programWithin c consumers (.asked c limit) (weightBound c limit)

def exactStatePrograms (f : Frame) (c : NetClass) (ls : Locations) (limit : Nat)
    (difference : IntVector) : List IntegerProgram :=
  (consumerSets ls).flatMap fun consumers =>
    (differenceRows difference).map (f.exactProgram c limit consumers).add

def exactEventProgram (f : Frame) (c : NetClass) (ls : Locations) (limit : Nat) (s : State)
    (i : Nat) (location : Option Location) : IntegerProgram :=
  (f.exactProgram c limit (sharers ls location)).add (f.disablingRow s i)

end Frame

namespace NetClass.Representable

variable (representable : c.Representable limit)

include representable

theorem program : f.program c limit consumers = .ok (f.exactProgram c limit consumers) :=
  bind_eq_ok.2 ⟨_, representable, rfl⟩

theorem solverProgram :
    f.solverProgram c limit consumers = .ok (f.exactProgram c limit consumers) :=
  bind_eq_ok.2 ⟨_, representable, rfl⟩

theorem statePrograms (ls : Locations) (difference : IntVector) :
    f.statePrograms c ls limit difference = .ok (f.exactStatePrograms c ls limit difference) := by
  refine bind_eq_ok.2 ⟨_, mapM_eq_ok fun _ _ => representable.solverProgram, ?_⟩
  rw [Frame.exactStatePrograms, List.flatMap_map]
  rfl

theorem eventProgram (ls : Locations) (s : State) (i : Nat) (location : Option Location) :
    f.eventProgram c ls limit s i location =
      .ok (f.exactEventProgram c ls limit s i location) :=
  bind_eq_ok.2 ⟨_, representable.solverProgram, rfl⟩

end NetClass.Representable

namespace NetClass.Convertible

variable (convertible : c.Convertible limit)

include convertible

theorem solverProgram (consumers : Option (List Nat)) :
    ∃ p, f.solverProgram c limit consumers = .ok p :=
  convertible.imp' _ fun _ rounded => bind_eq_ok.2 ⟨_, rounded, rfl⟩

theorem statePrograms (ls : Locations) (difference : IntVector) :
    ∃ programs, f.statePrograms c ls limit difference = .ok programs := by
  obtain ⟨bases, built⟩ := mapM_isOk_iff.2 fun consumers (_ : consumers ∈ consumerSets ls) =>
    convertible.solverProgram (f := f) consumers
  exact ⟨_, bind_eq_ok.2 ⟨bases, built, rfl⟩⟩

theorem eventProgram (ls : Locations) (s : State) (i : Nat) (location : Option Location) :
    ∃ p, f.eventProgram c ls limit s i location = .ok p :=
  (convertible.solverProgram _).imp' _ fun _ built => bind_eq_ok.2 ⟨_, built, rfl⟩

end NetClass.Convertible

namespace Frame

variable {ls : Locations} {p : IntegerProgram} {programs : List IntegerProgram}

/-- A program in the hands of a solver, with one row more. -/
def Rounded (f : Frame) (c : NetClass) (limit : Nat) (p : IntegerProgram) : Prop :=
  ∃ b consumers row, ProgramBounds.rounded c limit = .ok b ∧
    p = (f.programWithin c consumers b b.weight).add row

theorem rounded_of_mem_statePrograms {difference : IntVector}
    (built : f.statePrograms c ls limit difference = .ok programs) (tried : p ∈ programs) :
    f.Rounded c limit p := by
  obtain ⟨bases, each, last⟩ := bind_eq_ok.1 built
  obtain rfl := pure_eq_ok.1 last
  obtain ⟨base, member, added⟩ := List.mem_flatMap.1 tried
  obtain ⟨row, _, rfl⟩ := List.mem_map.1 added
  obtain ⟨consumers, _, made⟩ := exists_of_mem_mapM each member
  obtain ⟨b, rounded, same⟩ := bind_eq_ok.1 made
  exact ⟨b, consumers, row, rounded, by rw [pure_eq_ok.1 same]⟩

theorem rounded_of_eventProgram {s : State} {i : Nat} {location : Option Location}
    (built : f.eventProgram c ls limit s i location = .ok p) : f.Rounded c limit p := by
  obtain ⟨base, made, last⟩ := bind_eq_ok.1 built
  obtain ⟨b, rounded, same⟩ := bind_eq_ok.1 made
  obtain rfl := pure_eq_ok.1 last
  exact ⟨b, _, _, rounded, by rw [pure_eq_ok.1 same]⟩

end Frame

end NetSynthesis
