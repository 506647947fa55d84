import Mathlib.Data.Set.Function
import NetSynthesis.Proofs.SwitchRows
import NetSynthesis.Separation

/-! Places for a word. What a place has to do with a word is said about letters and prefixes only,
so that the letters can be renamed and places for a word are places for each of its factors. A word
whose steps can be prevented by places where they do not belong passes this on to its suffixes and,
if there is no bound on tokens, to its prefixes. -/
namespace NetSynthesis

open SeparationProgram

variable {c : NetClass} {limit : Nat} {word factor v u : List Event} {e x : Event}
  {σ τ : Event → Event} {before : List Event}

structure WordPlace where
  initial : Int
  weights : Event → Weight

namespace WordPlace

def effect (p : WordPlace) (e : Event) : Int := (p.weights e).effect

/-- The tokens after some letters. -/
def tokens (p : WordPlace) (v : List Event) : Int := p.initial + (v.map p.effect).sum

theorem tokens_append (p : WordPlace) (u v : List Event) :
    p.tokens (u ++ v) = p.tokens u + (v.map p.effect).sum := by
  simp [tokens, Int.add_assoc]

/-- The place lets a word pass. -/
structure Carries (p : WordPlace) (word : List Event) : Prop where
  nonneg : ∀ v, v <+: word → 0 ≤ p.tokens v
  enough : ∀ v e, v ++ [e] <+: word → ((p.weights e).backward : Int) ≤ p.tokens v

/-- No two letters of a word have a property. -/
def AtMostOne (word : List Event) (P : Event → Prop) : Prop :=
  ∀ d ∈ word, ∀ e ∈ word, P d → P e → d = e

def Takes (p : WordPlace) (e : Event) : Prop := 0 < (p.weights e).backward

def Puts (p : WordPlace) (e : Event) : Prop := 0 < (p.weights e).forward

/-- The place is as a class of nets asks for, as far as the letters of a word are concerned. -/
structure Suits (p : WordPlace) (c : NetClass) (limit : Nat) (word : List Event) : Prop where
  pure : c.pure = true → ∀ e ∈ word, (p.weights e).forward = 0 ∨ (p.weights e).backward = 0
  light : ∀ e ∈ word, (p.weights e).backward ≤ weightBound c limit ∧
    (p.weights e).forward ≤ weightBound c limit
  bounded : ∀ k ∈ c.bound, ∀ v, v <+: word → p.tokens v ≤ k
  tNet : c.tNet = true → AtMostOne word p.Takes ∧ AtMostOne word p.Puts
  outputNonbranching : c.outputNonbranching = true → AtMostOne word p.Takes
  conflictFree : c.conflictFree = true → AtMostOne word p.Takes ∨ ∀ e ∈ word, p.Takes e → p.Puts e

end WordPlace

open WordPlace

/-- Gains are -1, 0 or 1, and no three letters of a word have gains that are not zero. -/
structure SlightGains (gains : Event → Int) (word : List Event) : Prop where
  small : ∀ e ∈ word, -1 ≤ gains e ∧ gains e ≤ 1
  few : ∀ e₁ ∈ word, ∀ e₂ ∈ word, ∀ e₃ ∈ word, gains e₁ ≠ 0 → gains e₂ ≠ 0 → gains e₃ ≠ 0 →
    e₁ = e₂ ∨ e₂ = e₃ ∨ e₁ = e₃

/-- The class asks for nothing that side conditions could spoil. -/
def NetClass.AdmitsConditions (c : NetClass) : Prop :=
  Strategy.restrictions c = [] ∧ c.pure = false

/-- A letter can be prevented after some others: by a place of the class, or by a side condition, of
whatever weight, that compares slight gains. -/
def Prevents (c : NetClass) (limit : Nat) (word v : List Event) (e : Event) : Prop :=
  (∃ p : WordPlace, p.Carries word ∧ p.Suits c limit word ∧
    p.tokens v < ((p.weights e).backward : Int)) ∨
  (c.AdmitsConditions ∧ ∃ gains, SlightGains gains word ∧
    ∀ u, u ++ [e] <+: word → (v.map gains).sum < (u.map gains).sum)

/-- Whatever a word does not do next can be prevented. -/
def WordSolvable (c : NetClass) (limit : Nat) (word : List Event) : Prop :=
  ∀ v e, v <+: word → e ∈ word → ¬ v ++ [e] <+: word → Prevents c limit word v e

/-! ### Factors -/

/-- A word is, up to the names of its letters, a factor of another, behind some letters. -/
structure IsFactor (τ : Event → Event) (before factor word : List Event) : Prop where
  within : before ++ factor.map τ <+: word
  injective : ∀ d ∈ factor, ∀ e ∈ factor, τ d = τ e → d = e

def WordPlace.behind (p : WordPlace) (τ : Event → Event) (before : List Event) : WordPlace :=
  ⟨p.tokens before, p.weights ∘ τ⟩

theorem WordPlace.tokens_behind (p : WordPlace) (τ : Event → Event) (before v : List Event) :
    (p.behind τ before).tokens v = p.tokens (before ++ v.map τ) := by
  rw [tokens_append, List.map_map]
  rfl

namespace IsFactor

variable (part : IsFactor τ before factor word)

include part

theorem mem (member : e ∈ factor) : τ e ∈ word :=
  part.within.subset (List.mem_append_right _ (List.mem_map_of_mem member))

theorem forall_mem {P : Event → Prop} (all : ∀ e ∈ word, P e) : ∀ e ∈ factor, P (τ e) :=
  fun _ member => all _ (part.mem member)

theorem isPrefix (shorter : v <+: factor) : before ++ v.map τ <+: word :=
  ((List.prefix_append_right_inj before).2 (shorter.map τ)).trans part.within

theorem isPrefix_snoc (shorter : v ++ [e] <+: factor) : (before ++ v.map τ) ++ [τ e] <+: word := by
  have longer := part.isPrefix shorter
  rwa [List.map_append, ← List.append_assoc] at longer

theorem atMostOne {P : Event → Prop} (one : AtMostOne word P) : AtMostOne factor (P ∘ τ) :=
  fun d hd e he first second => part.injective d hd e he
    (one _ (part.mem hd) _ (part.mem he) first second)

theorem carries {p : WordPlace} (carries : p.Carries word) :
    (p.behind τ before).Carries factor := by
  refine ⟨fun v shorter => ?_, fun v e shorter => ?_⟩ <;> rw [tokens_behind]
  · exact carries.nonneg _ (part.isPrefix shorter)
  · exact carries.enough _ _ (part.isPrefix_snoc shorter)

theorem suits {p : WordPlace} (suits : p.Suits c limit word) :
    (p.behind τ before).Suits c limit factor where
  pure given := part.forall_mem (suits.pure given)
  light := part.forall_mem suits.light
  bounded k given v shorter := by
    rw [tokens_behind]
    exact suits.bounded k given _ (part.isPrefix shorter)
  tNet given := (suits.tNet given).imp part.atMostOne part.atMostOne
  outputNonbranching given := part.atMostOne (suits.outputNonbranching given)
  conflictFree given := (suits.conflictFree given).imp part.atMostOne part.forall_mem

theorem slight {gains : Event → Int} (slight : SlightGains gains word) :
    SlightGains (gains ∘ τ) factor := by
  refine ⟨part.forall_mem slight.small, fun e₁ h₁ e₂ h₂ e₃ h₃ d₁ d₂ d₃ => ?_⟩
  exact (slight.few _ (part.mem h₁) _ (part.mem h₂) _ (part.mem h₃) d₁ d₂ d₃).imp
    (part.injective _ h₁ _ h₂) (Or.imp (part.injective _ h₂ _ h₃) (part.injective _ h₁ _ h₃))

/-- What is prevented in the word is prevented in its factor. -/
theorem prevents (prevented : Prevents c limit word (before ++ v.map τ) (τ e)) :
    Prevents c limit factor v e := by
  rcases prevented with ⟨p, carries, suits, short⟩ | ⟨admits, gains, slight, less⟩
  · refine .inl ⟨p.behind τ before, part.carries carries, part.suits suits, ?_⟩
    rw [tokens_behind]
    exact short
  · refine .inr ⟨admits, gains ∘ τ, part.slight slight, fun u shorter => ?_⟩
    have differ := less _ (part.isPrefix_snoc shorter)
    simp only [List.map_append, List.sum_append, List.map_map] at differ
    exact Int.lt_of_add_lt_add_left differ

/-- Before its end the factor does what the word does. -/
theorem isPrefix_of_snoc (shorter : v <+: factor) (inside : v.length < factor.length)
    (member : e ∈ factor) (follows : (before ++ v.map τ) ++ [τ e] <+: word) :
    v ++ [e] <+: factor := by
  obtain ⟨rest, rfl⟩ := shorter
  cases rest with
  | nil => simp at inside
  | cons d rest =>
    have next : (before ++ v.map τ) ++ [τ d] <+: word :=
      part.isPrefix_snoc ⟨rest, by simp⟩
    have same := List.prefix_of_prefix_length_le follows next (by simp)
    have equal : τ e = τ d := by simpa using (List.prefix_append_right_inj _).1 same
    obtain rfl := part.injective e member d (by simp) equal
    exact ⟨rest, by simp⟩

end IsFactor

namespace WordSolvable

/-- A suffix under other names. -/
theorem of_isFactor (solvable : WordSolvable c limit (before ++ factor.map τ))
    (injective : ∀ d ∈ factor, ∀ e ∈ factor, τ d = τ e → d = e) :
    WordSolvable c limit factor := by
  have part : IsFactor τ before factor (before ++ factor.map τ) := ⟨List.prefix_refl _, injective⟩
  intro v e shorter member off
  refine part.prevents (solvable _ _ (part.isPrefix shorter) (part.mem member) fun follows => ?_)
  by_cases inside : v.length < factor.length
  · exact off (part.isPrefix_of_snoc shorter inside member follows)
  · have bound := follows.length_le
    simp at bound
    omega

theorem of_map (solvable : WordSolvable c limit (factor.map τ))
    (injective : ∀ d ∈ factor, ∀ e ∈ factor, τ d = τ e → d = e) :
    WordSolvable c limit factor :=
  of_isFactor (show WordSolvable c limit ([] ++ factor.map τ) from solvable) injective

theorem map (solvable : WordSolvable c limit word)
    (injective : Set.InjOn σ { e | e ∈ word }) : WordSolvable c limit (word.map σ) := by
  let τ := Function.invFunOn σ { e | e ∈ word }
  have back : ∀ e ∈ word, τ (σ e) = e := fun e member =>
    injective.leftInvOn_invFunOn member
  have same : (word.map σ).map τ = word := by
    rw [List.map_map]
    exact (List.map_congr_left back).trans (List.map_id' word)
  refine of_map (τ := τ) ?_ ?_
  · rwa [same]
  · simp only [List.forall_mem_map]
    intro d hd e he equal
    rw [back d hd, back e he] at equal
    rw [equal]

theorem map_iff (injective : Set.InjOn σ { e | e ∈ word }) :
    WordSolvable c limit (word.map σ) ↔ WordSolvable c limit word :=
  ⟨fun solvable => solvable.of_map fun _ hd _ he same => injective hd he same,
    fun solvable => solvable.map injective⟩

theorem suffix (solvable : WordSolvable c limit (u ++ word)) : WordSolvable c limit word :=
  of_isFactor (show WordSolvable c limit (u ++ word.map id) by simpa using solvable)
    fun _ _ _ _ => id

theorem nil : WordSolvable c limit [] := fun _ _ _ member => absurd member List.not_mem_nil

end WordSolvable

/-! ### Stocks -/

/-- A place that counts how often a letter can still come in a word. -/
def WordPlace.stock (word : List Event) (x : Event) : WordPlace :=
  ⟨word.count x, fun e => if e = x then ⟨1, 0⟩ else ⟨0, 0⟩⟩

namespace WordPlace

theorem tokens_stock (word v : List Event) (x : Event) :
    (stock word x).tokens v = word.count x - v.count x := by
  have sum : (v.map (stock word x).effect).sum = -(v.count x : Int) := by
    induction v with
    | nil => rfl
    | cons e v ih =>
      rw [List.map_cons, List.sum_cons, ih, List.count_cons]
      by_cases same : e = x <;> simp [effect, stock, Weight.effect, same]
  rw [tokens, sum]
  rfl

theorem takes_stock {d : Event} : (stock word x).Takes d ↔ d = x := by
  by_cases same : d = x <;> simp [Takes, stock, same]

theorem not_puts_stock (word : List Event) (x d : Event) : ¬ (stock word x).Puts d := by
  by_cases same : d = x <;> simp [Puts, stock, same]

theorem stock_carries (word : List Event) (x : Event) : (stock word x).Carries word := by
  refine ⟨fun v shorter => ?_, fun v e shorter => ?_⟩ <;> rw [tokens_stock]
  · have := shorter.sublist.count_le x
    omega
  · have fewer := shorter.sublist.count_le x
    rw [List.count_append] at fewer
    by_cases same : e = x <;> simp [stock, same] at fewer ⊢ <;> omega

theorem stock_suits (free : c.bound = none) (positive : 0 < limit) :
    (stock word x).Suits c limit word := by
  have one : 1 ≤ weightBound c limit := by
    rw [weightBound]
    split <;> omega
  have takes : AtMostOne word (stock word x).Takes := fun d _ e _ first second =>
    (takes_stock.1 first).trans (takes_stock.1 second).symm
  refine ⟨fun _ e _ => .inl ?_, fun e _ => ?_, by simp [free], fun _ => ⟨takes, ?_⟩, fun _ => takes,
    fun _ => .inl takes⟩
  · exact Nat.eq_zero_of_not_pos (not_puts_stock word x e)
  · by_cases same : e = x <;> simp [stock, same, one]
  · exact fun d _ e _ puts => absurd puts (not_puts_stock word x d)

end WordPlace

/-- Without a bound on tokens a word passes on that it is solvable to its prefixes. -/
theorem WordSolvable.dropLast (free : c.bound = none) (positive : 0 < limit)
    (solvable : WordSolvable c limit (word ++ [x])) : WordSolvable c limit word := by
  have part : IsFactor id [] word (word ++ [x]) :=
    ⟨by simp, fun _ _ _ _ => id⟩
  intro v e shorter member off
  have follow (other : ¬ v ++ [e] <+: word ++ [x]) : Prevents c limit word v e := by
    apply part.prevents
    rw [List.map_id, List.nil_append]
    exact solvable v e (shorter.trans (List.prefix_append _ _))
      (List.mem_append_left _ member) other
  by_cases inside : v.length < word.length
  · refine follow fun follows => off (part.isPrefix_of_snoc shorter inside member ?_)
    simpa using follows
  obtain rfl := shorter.eq_of_length_le (Nat.not_lt.1 inside)
  refine .inl ⟨stock v e, stock_carries v e, stock_suits free positive, ?_⟩
  rw [tokens_stock]
  simp [stock]

end NetSynthesis
