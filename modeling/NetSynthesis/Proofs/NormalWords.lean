import Mathlib.Data.Finset.Card
import Mathlib.Data.Set.Function
import NetSynthesis.Proofs.ExceptSteps
import NetSynthesis.Proofs.SearchedLists
import NetSynthesis.Proofs.WellFormedSystem
import NetSynthesis.WordSearch

/-! Normalized words. Normalizing gives the letters of a word different names, the same for the same
letter, and does not change a word that it has made. The normalized words are made one letter at a
time: in front of one of them there may stand just the letters that it is extended by. -/
namespace NetSynthesis.WordSearch

variable {letters alphabet rest known : List Event} {v w w' done : Word} {r : Renaming}
  {x e : Event}

/-! ### Renaming -/

/-- The name of a letter; letters without a name keep their own. -/
def Renaming.apply (r : Renaming) (e : Event) : Event := (r.names.lookup e).getD e

/-- Names for just the letters of a word, taken from the front of an alphabet. -/
structure Names (letters : List Event) (w : Word) (r : Renaming) : Prop where
  keys : (r.names.map (·.1)).Nodup
  mem_keys : ∀ e, e ∈ r.names.map (·.1) ↔ e ∈ w
  values : r.names.map (·.2) ++ r.unused = letters

namespace Names

theorem lookup_eq_none_iff (names : Names letters w r) : r.names.lookup e = none ↔ e ∉ w := by
  rw [← names.mem_keys, List.lookup_eq_none_iff, List.mem_map]
  constructor
  · rintro none ⟨p, member, rfl⟩
    simpa using none p member
  · intro off p member
    exact bne_iff_ne.2 fun same => off ⟨p, member, same.symm⟩

theorem exists_name (names : Names letters w r) (member : e ∈ w) :
    ∃ name, r.names.lookup e = some name ∧ r.apply e = name ∧ (e, name) ∈ r.names := by
  obtain ⟨name, entry⟩ := Option.ne_none_iff_exists'.1 fun none =>
    names.lookup_eq_none_iff.1 none member
  exact ⟨name, entry, by simp [Renaming.apply, entry], mem_of_lookup entry⟩

theorem apply_mem (names : Names letters w r) (member : e ∈ w) : r.apply e ∈ letters := by
  obtain ⟨name, _, named, entry⟩ := names.exists_name member
  rw [named, ← names.values]
  exact List.mem_append_left _ (List.mem_map_of_mem entry)

/-- Different letters have different names. -/
theorem injOn (names : Names letters w r) (nodup : letters.Nodup) :
    Set.InjOn r.apply { e | e ∈ w } := by
  intro d hd e he same
  obtain ⟨name, _, named, entry⟩ := names.exists_name hd
  obtain ⟨other, _, named', entry'⟩ := names.exists_name he
  obtain rfl : name = other := named.symm.trans (same.trans named')
  have different : (r.names.map (·.2)).Nodup := (List.nodup_append.1 (names.values ▸ nodup)).1
  exact (Prod.mk.inj (List.inj_on_of_nodup_map different entry entry' rfl)).1

theorem card_add_unused (names : Names letters w r) :
    w.toFinset.card + r.unused.length = letters.length := by
  have keys : (r.names.map (·.1)).toFinset = w.toFinset := by
    ext e
    rw [List.mem_toFinset, List.mem_toFinset, names.mem_keys]
  rw [← keys, List.toFinset_card_of_nodup names.keys, ← names.values]
  simp

end Names

theorem rename_cons_eq_some : rename letters (x :: w) = some (w', r) ↔
    ∃ done r₀ name, rename letters w = some (done, r₀) ∧ w' = name :: done ∧
      (r₀.names.lookup x = some name ∧ r = r₀ ∨ r₀.names.lookup x = none ∧
        ∃ unused, r₀.unused = name :: unused ∧ r = ⟨r₀.names ++ [(x, name)], unused⟩) := by
  rw [rename]
  constructor
  · intro renamed
    obtain ⟨⟨done, r₀⟩, before, step⟩ := Option.bind_eq_some_iff.1 renamed
    refine ⟨done, r₀, ?_⟩
    cases entry : r₀.names.lookup x with
    | some name =>
      simp only [entry] at step
      obtain ⟨rfl, rfl⟩ := Prod.mk.inj (Option.some.inj step)
      exact ⟨name, before, rfl, .inl ⟨rfl, rfl⟩⟩
    | none =>
      cases next : r₀.unused with
      | nil => simp [entry, next] at step
      | cons name unused =>
        simp only [entry, next] at step
        obtain ⟨rfl, rfl⟩ := Prod.mk.inj (Option.some.inj step)
        exact ⟨name, before, rfl, .inr ⟨rfl, unused, rfl, rfl⟩⟩
  · rintro ⟨done, r₀, name, before, rfl, ⟨entry, rfl⟩ | ⟨none, unused, next, rfl⟩⟩
    · simp [before, entry]
    · simp [before, none, next]

theorem names_of_rename (renamed : rename letters w = some (w', r)) :
    Names letters w r ∧ w' = w.map r.apply := by
  induction w generalizing w' r with
  | nil =>
    obtain ⟨rfl, rfl⟩ := Prod.mk.inj (Option.some.inj renamed)
    exact ⟨⟨.nil, by simp, rfl⟩, rfl⟩
  | cons x w ih =>
    obtain ⟨done, r₀, name, before, rfl, step⟩ := rename_cons_eq_some.1 renamed
    obtain ⟨names, rfl⟩ := ih before
    rcases step with ⟨entry, rfl⟩ | ⟨none, unused, next, rfl⟩
    · have old : x ∈ w := by
        by_contra new
        simp [names.lookup_eq_none_iff.2 new] at entry
      refine ⟨⟨names.keys, fun e => ?_, names.values⟩, ?_⟩
      · rw [names.mem_keys, List.mem_cons]
        exact ⟨.inr, fun either => either.elim (fun same => same ▸ old) id⟩
      · simp [Renaming.apply, entry]
    · have new := names.lookup_eq_none_iff.1 none
      refine ⟨⟨?_, fun e => ?_, ?_⟩, ?_⟩
      · rw [List.map_append]
        refine names.keys.append (List.nodup_singleton _) ?_
        simpa [List.disjoint_singleton] using fun n entry =>
          new ((names.mem_keys x).1 (List.mem_map_of_mem entry))
      · rw [List.map_append, List.mem_append, names.mem_keys, List.mem_cons]
        simp [or_comm]
      · rw [← names.values, next]
        simp
      · have kept (e : Event) (member : e ∈ w) : r₀.apply e =
            Renaming.apply ⟨r₀.names ++ [(x, name)], unused⟩ e := by
          obtain ⟨_, entry, _⟩ := names.exists_name member
          simp [Renaming.apply, List.lookup_append, entry]
        rw [List.map_cons, ← List.map_congr_left kept]
        simp [Renaming.apply, List.lookup_append, none]

/-- The words that can be renamed are those with no more letters than there are names. -/
theorem exists_rename_iff :
    (∃ w' r, rename letters w = some (w', r)) ↔ w.toFinset.card ≤ letters.length := by
  constructor
  · rintro ⟨w', r, renamed⟩
    have count := (names_of_rename renamed).1.card_add_unused
    omega
  · intro few
    induction w with
    | nil => exact ⟨_, _, rfl⟩
    | cons x w ih =>
      rw [List.toFinset_cons] at few
      obtain ⟨done, r, before⟩ := ih ((Finset.card_le_card (Finset.subset_insert _ _)).trans few)
      obtain ⟨names, _⟩ := names_of_rename before
      cases entry : r.names.lookup x with
      | some name =>
        exact ⟨_, _, rename_cons_eq_some.2 ⟨done, r, name, before, rfl, .inl ⟨entry, rfl⟩⟩⟩
      | none =>
        have new : x ∉ w.toFinset := by
          rw [List.mem_toFinset]
          exact names.lookup_eq_none_iff.1 entry
        have count := names.card_add_unused
        rw [Finset.card_insert_of_notMem new] at few
        obtain ⟨name, unused, next⟩ := List.exists_cons_of_length_pos (l := r.unused) (by omega)
        exact ⟨_, _, rename_cons_eq_some.2
          ⟨done, r, name, before, rfl, .inr ⟨entry, unused, next, rfl⟩⟩⟩

theorem exists_rename (among : ∀ e ∈ w, e ∈ letters) :
    ∃ w' r, rename letters w = some (w', r) := by
  have inside : w.toFinset ⊆ letters.toFinset := fun e member =>
    List.mem_toFinset.2 (among e (List.mem_toFinset.1 member))
  exact exists_rename_iff.2 ((Finset.card_le_card inside).trans (List.toFinset_card_le letters))

/-- The names of letters in a word are their own names in the renamed word. -/
theorem rename_rename (nodup : letters.Nodup) (renamed : rename letters w = some (w', r)) :
    rename letters w' =
      some (w', ⟨(r.names.map (·.2)).map fun name => (name, name), r.unused⟩) := by
  induction w generalizing w' r with
  | nil =>
    obtain ⟨rfl, rfl⟩ := Prod.mk.inj (Option.some.inj renamed)
    rfl
  | cons x w ih =>
    obtain ⟨done, r₀, name, before, rfl, step⟩ := rename_cons_eq_some.1 renamed
    obtain ⟨names, _⟩ := names_of_rename before
    refine rename_cons_eq_some.2 ⟨done, _, name, ih before, rfl, ?_⟩
    rcases step with ⟨entry, rfl⟩ | ⟨_, unused, next, rfl⟩
    · refine .inl ⟨?_, rfl⟩
      have value : name ∈ r.names.map (·.2) := List.mem_map_of_mem (mem_of_lookup entry)
      exact (lookup_map_pair _ id name).trans (if_pos value)
    · have fresh : name ∉ r₀.names.map (·.2) := by
        rw [← names.values, next] at nodup
        exact fun value => (List.nodup_append.1 nodup).2.2 name value name (by simp) rfl
      refine .inr ⟨?_, unused, next, by simp⟩
      exact (lookup_map_pair _ id name).trans (if_neg fresh)

theorem rename_suffix (renamed : rename letters w = some (w, r)) (suffix : v <:+ w) :
    ∃ r', rename letters v = some (v, r') := by
  obtain ⟨front, rfl⟩ := suffix
  induction front generalizing r with
  | nil => exact ⟨r, renamed⟩
  | cons x front ih =>
    obtain ⟨done, r₀, name, before, same, _⟩ := rename_cons_eq_some.1 renamed
    obtain ⟨_, rfl⟩ := List.cons.inj same
    exact ih before

/-! ### Normal forms -/

theorem normalize_eq_ok_iff : normalize w alphabet = .ok w' ↔
    ∃ r, rename (sortedLetters alphabet) w = some (w', r) := by
  rw [normalize]
  cases rename (sortedLetters alphabet) w with
  | none => simp
  | some p => simp [Prod.ext_iff]

/-- The alphabet is in order and has no letter twice. -/
def Sorted (letters : List Event) : Prop := letters.Pairwise (· < ·)

theorem Sorted.nodup (sorted : Sorted letters) : letters.Nodup :=
  List.Pairwise.imp (fun less => ne_of_lt less) sorted

theorem Sorted.sortedLetters_eq (sorted : Sorted letters) : sortedLetters letters = letters :=
  List.mergeSort_of_pairwise (sorted.imp fun less => decide_eq_true (le_of_lt less))

/-- A word over an alphabet that is its own normal form. -/
structure Normalized (letters : List Event) (w : Word) : Prop where
  among : ∀ e ∈ w, e ∈ letters
  normal : normalize w letters = .ok w

variable (sorted : Sorted letters)

include sorted

theorem normalize_eq_ok : normalize w letters = .ok w' ↔ ∃ r, rename letters w = some (w', r) := by
  rw [normalize_eq_ok_iff, sorted.sortedLetters_eq]

/-- Normalizing renames different letters differently, and what it makes is normalized. -/
theorem exists_normalize (among : ∀ e ∈ w, e ∈ letters) : ∃ w' σ, normalize w letters = .ok w' ∧
    Normalized letters w' ∧ Set.InjOn σ { e | e ∈ w } ∧ w' = w.map σ := by
  obtain ⟨w', r, renamed⟩ := exists_rename among
  obtain ⟨names, same⟩ := names_of_rename renamed
  refine ⟨w', r.apply, (normalize_eq_ok sorted).2 ⟨r, renamed⟩, ⟨?_, ?_⟩,
    names.injOn sorted.nodup, same⟩
  · subst same
    exact List.forall_mem_map.2 fun e member => names.apply_mem member
  · exact (normalize_eq_ok sorted).2 ⟨_, rename_rename sorted.nodup renamed⟩

theorem Normalized.exists_names (normalized : Normalized letters w) :
    ∃ r, rename letters w = some (w, r) ∧ Names letters w r ∧
      ∀ e, r.names.lookup e = if e ∈ w then some e else none := by
  obtain ⟨r, renamed⟩ := (normalize_eq_ok sorted).1 normalized.normal
  obtain ⟨names, same⟩ := names_of_rename renamed
  refine ⟨r, renamed, names, fun e => ?_⟩
  split
  · rename_i member
    obtain ⟨name, entry, named, _⟩ := names.exists_name member
    have own : w.map r.apply = w.map id := by rw [← same, List.map_id]
    rw [entry, ← named, List.map_eq_map_iff.1 own e member, id]
  · rename_i off
    exact names.lookup_eq_none_iff.2 off

omit sorted in
theorem extensions_append (all : ∀ l ∈ known, l ∈ w) :
    extensions (known ++ rest) w = known ++ extensions rest w := by
  induction known with
  | nil => rfl
  | cons l known ih =>
    obtain ⟨first, others⟩ := List.forall_mem_cons.1 all
    simp [extensions, first, ih others]

omit sorted in
theorem extensions_of_new (new : ∀ l ∈ rest, l ∉ w) : extensions rest w = rest.take 1 := by
  cases rest with
  | nil => rfl
  | cons l rest => simp [extensions, new l (by simp)]

/-- A normalized word is extended by its own letters and the first one unused. -/
theorem Normalized.extensions_eq (normalized : Normalized letters w) : ∃ known rest,
    known ++ rest = letters ∧ (∀ e, e ∈ known ↔ e ∈ w) ∧
      extensions letters w = known ++ rest.take 1 ∧
        ∃ r, rename letters w = some (w, r) ∧ r.unused = rest := by
  obtain ⟨r, renamed, names, own⟩ := normalized.exists_names sorted
  have known (e : Event) : e ∈ r.names.map (·.2) ↔ e ∈ w := by
    constructor
    · intro value
      obtain ⟨⟨d, _⟩, entry, rfl⟩ := List.mem_map.1 value
      have named := (lookup_eq_some_iff_mem names.keys).2 entry
      rw [own] at named
      split at named
      · rename_i member
        obtain rfl := Option.some.inj named
        exact member
      · simp at named
    · intro member
      exact List.mem_map_of_mem (mem_of_lookup ((own e).trans (if_pos member)))
  refine ⟨_, _, names.values, known, ?_, r, renamed, rfl⟩
  have new : ∀ l ∈ r.unused, l ∉ w := by
    intro l unused member
    have nodup := sorted.nodup
    rw [← names.values] at nodup
    exact (List.nodup_append.1 nodup).2.2 l ((known l).2 member) l unused rfl
  conv_lhs => rw [← names.values]
  rw [extensions_append fun l value => (known l).1 value, extensions_of_new new]

theorem normalized_nil : Normalized letters [] :=
  ⟨by simp, (normalize_eq_ok sorted).2 ⟨_, rfl⟩⟩

theorem Normalized.extensions_nodup (normalized : Normalized letters w) :
    (extensions letters w).Nodup := by
  obtain ⟨known, rest, split, _, extended, _⟩ := normalized.extensions_eq sorted
  have nodup := sorted.nodup
  rw [← split] at nodup
  rw [extended]
  exact nodup.sublist ((List.take_sublist 1 rest).append_left known)

/-- In front of a normalized word there may stand just its extensions. -/
theorem normalized_cons :
    Normalized letters (x :: w) ↔ Normalized letters w ∧ x ∈ extensions letters w := by
  constructor
  · rintro ⟨among, normal⟩
    obtain ⟨r, renamed⟩ := (normalize_eq_ok sorted).1 normal
    obtain ⟨done, r₀, name, before, same, step⟩ := rename_cons_eq_some.1 renamed
    obtain ⟨rfl, rfl⟩ := List.cons.inj same
    have normalized : Normalized letters w :=
      ⟨(List.forall_mem_cons.1 among).2, (normalize_eq_ok sorted).2 ⟨r₀, before⟩⟩
    refine ⟨normalized, ?_⟩
    obtain ⟨known, rest, _, values, extended, r', again, rfl⟩ := normalized.extensions_eq sorted
    obtain ⟨_, rfl⟩ := Prod.mk.inj (Option.some.inj (before.symm.trans again))
    rw [extended, List.mem_append, values]
    rcases step with ⟨entry, _⟩ | ⟨_, unused, next, _⟩
    · left
      by_contra new
      simp [(names_of_rename before).1.lookup_eq_none_iff.2 new] at entry
    · simp [next]
  · rintro ⟨normalized, extends_w⟩
    obtain ⟨known, rest, split, values, extended, r, before, unused⟩ :=
      normalized.extensions_eq sorted
    obtain ⟨r', before', names, own⟩ := normalized.exists_names sorted
    obtain ⟨_, rfl⟩ := Prod.mk.inj (Option.some.inj (before.symm.trans before'))
    rw [extended, List.mem_append, values] at extends_w
    refine ⟨List.forall_mem_cons.2 ⟨?_, normalized.among⟩, (normalize_eq_ok sorted).2 ?_⟩
    · rcases extends_w with old | first
      · exact normalized.among x old
      · exact split ▸ List.mem_append_right _ (List.mem_of_mem_take first)
    · by_cases old : x ∈ w
      · exact ⟨r, rename_cons_eq_some.2
          ⟨w, r, x, before, rfl, .inl ⟨(own x).trans (if_pos old), rfl⟩⟩⟩
      · have first := extends_w.resolve_left old
        cases rest with
        | nil => simp at first
        | cons n rest =>
          obtain rfl : x = n := by simpa using first
          exact ⟨_, rename_cons_eq_some.2
            ⟨w, r, x, before, rfl, .inr ⟨(own x).trans (if_neg old), rest, unused, rfl⟩⟩⟩

theorem Normalized.suffix (normalized : Normalized letters w) (end_of : v <:+ w) :
    Normalized letters v := by
  obtain ⟨r, renamed⟩ := (normalize_eq_ok sorted).1 normalized.normal
  exact ⟨fun e member => normalized.among e (end_of.subset member),
    (normalize_eq_ok sorted).2 (rename_suffix renamed end_of)⟩

end NetSynthesis.WordSearch
