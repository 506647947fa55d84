import NetSynthesis.Proofs.NormalWords

/-! A normalized word stands for all words that differ from it by a renaming. Over an alphabet of
different letters every word can be normalized that has no more letters than the alphabet, whatever
its own letters are. The names that are given depend only on which letters of the word are the same,
so that two words have one normal form just if one is the other with its letters renamed. -/
namespace NetSynthesis.WordSearch

variable {letters alphabet : List Event} {v v' w w' : Word} {r : Renaming} {σ τ : Event → Event}

/-! ### Words with the same normal form -/

def Renaming.mapKeys (σ : Event → Event) (r : Renaming) : Renaming :=
  ⟨r.names.map fun p => (σ p.1, p.2), r.unused⟩

theorem lookup_mapKeys (names : Names letters w r) {x : Event}
    (injective : Set.InjOn σ { e | e ∈ x :: w }) :
    (r.mapKeys σ).names.lookup (σ x) = r.names.lookup x := by
  have known : ∀ p ∈ r.names, p.1 ∈ w := fun p entry =>
    (names.mem_keys p.1).1 (List.mem_map_of_mem entry)
  rw [Renaming.mapKeys]
  generalize r.names = table at known
  induction table with
  | nil => rfl
  | cons p table ih =>
    obtain ⟨first, others⟩ := List.forall_mem_cons.1 known
    have same_iff : σ x = σ p.1 ↔ x = p.1 :=
      ⟨fun same => injective (by simp) (by simp [first]) same, congrArg σ⟩
    rw [List.map_cons, List.lookup_cons, List.lookup_cons, ih others]
    by_cases same : x = p.1
    · simp [same]
    · simp [beq_false_of_ne same, beq_false_of_ne (mt same_iff.1 same)]

/-- Only which letters of a word are the same decides about their names. -/
theorem rename_map (injective : Set.InjOn σ { e | e ∈ w }) : rename letters (w.map σ) =
    (rename letters w).map fun p => (p.1, p.2.mapKeys σ) := by
  induction w with
  | nil => rfl
  | cons x w ih =>
    have rest : Set.InjOn σ { e | e ∈ w } :=
      injective.mono fun e member => List.mem_cons_of_mem x member
    rw [List.map_cons, rename, ih rest, rename]
    cases before : rename letters w with
    | none => rfl
    | some p =>
      obtain ⟨done, r⟩ := p
      have found := lookup_mapKeys (names_of_rename before).1 injective
      simp only [Option.map_some, Option.bind_eq_bind, Option.bind_some, found]
      cases r.names.lookup x with
      | some name => rfl
      | none => cases next : r.unused <;> simp [Renaming.mapKeys, next]

/-- Words that become the same when different letters get different names are renamings of each
other. -/
theorem exists_renaming (hσ : Set.InjOn σ { e | e ∈ v }) (hτ : Set.InjOn τ { e | e ∈ w })
    (same : v.map σ = w.map τ) :
    ∃ ρ : Event → Event, Set.InjOn ρ { e | e ∈ v } ∧ v.map ρ = w := by
  let back := Function.invFunOn τ { e | e ∈ w }
  have left : ∀ e ∈ w, back (τ e) = e := fun e member => hτ.leftInvOn_invFunOn member
  have right : ∀ e ∈ v, τ (back (σ e)) = σ e := by
    intro e member
    have value : σ e ∈ w.map τ := same ▸ List.mem_map_of_mem member
    obtain ⟨d, inside, named⟩ := List.mem_map.1 value
    rw [← named, left d inside]
  refine ⟨back ∘ σ, fun d hd e he equal => hσ hd he ?_, ?_⟩
  · rw [← right d hd, ← right e he]
    exact congrArg τ equal
  · rw [← List.map_map, same, List.map_map]
    exact (List.map_congr_left left).trans (List.map_id' w)

/-! ### Normal forms -/

theorem normalize_eq_error_iff : normalize w alphabet = .error (.tooManyLetters (String.join w)) ↔
    rename (sortedLetters alphabet) w = none := by
  rw [normalize]
  cases rename (sortedLetters alphabet) w <;> simp

theorem sortedLetters_perm (alphabet : List Event) : (sortedLetters alphabet).Perm alphabet :=
  List.mergeSort_perm _ _

section Distinct

variable (distinct : alphabet.Nodup)

include distinct

theorem sortedLetters_nodup : (sortedLetters alphabet).Nodup :=
  (sortedLetters_perm alphabet).nodup_iff.2 distinct

/-- The normal form of a word is the word with new names for its letters. -/
theorem renaming_of_normalize (normal : normalize w alphabet = .ok w') :
    ∃ σ : Event → Event, Set.InjOn σ { e | e ∈ w } ∧ (∀ e ∈ w, σ e ∈ alphabet) ∧ w' = w.map σ := by
  obtain ⟨r, renamed⟩ := normalize_eq_ok_iff.1 normal
  obtain ⟨names, same⟩ := names_of_rename renamed
  refine ⟨r.apply, names.injOn (sortedLetters_nodup distinct), fun e member => ?_, same⟩
  exact (sortedLetters_perm alphabet).mem_iff.1 (names.apply_mem member)

theorem normalize_normalize (normal : normalize w alphabet = .ok w') :
    normalize w' alphabet = .ok w' := by
  obtain ⟨r, renamed⟩ := normalize_eq_ok_iff.1 normal
  exact normalize_eq_ok_iff.2 ⟨_, rename_rename (sortedLetters_nodup distinct) renamed⟩

theorem normalize_eq_iff (hv : normalize v alphabet = .ok v') (hw : normalize w alphabet = .ok w') :
    v' = w' ↔ ∃ σ : Event → Event, Set.InjOn σ { e | e ∈ v } ∧ v.map σ = w := by
  constructor
  · rintro rfl
    obtain ⟨σ, hσ, _, first⟩ := renaming_of_normalize distinct hv
    obtain ⟨τ, hτ, _, second⟩ := renaming_of_normalize distinct hw
    exact exists_renaming hσ hτ (first.symm.trans second)
  · rintro ⟨σ, injective, rfl⟩
    obtain ⟨r, renamed⟩ := normalize_eq_ok_iff.1 hv
    have carried : normalize (v.map σ) alphabet = .ok v' :=
      normalize_eq_ok_iff.2 ⟨_, by rw [rename_map injective, renamed]; rfl⟩
    exact Except.ok.inj (carried.symm.trans hw)

/-- Over an alphabet of different letters, normal forms stand for words up to renaming. A word with
no more letters than the alphabet has a normal form, which is the word under new names from the
alphabet and is its own normal form. Two such words have the same normal form just if one is the
other under new names. A suffix of a word that is its own normal form is so too. A word with too
many letters is a wrong value. -/
theorem normalize_canonical :
    (∀ w : Word, w.toFinset.card ≤ alphabet.length → ∃ w', normalize w alphabet = .ok w' ∧
      (∃ σ : Event → Event, Set.InjOn σ { e | e ∈ w } ∧ (∀ e ∈ w, σ e ∈ alphabet) ∧
        w' = w.map σ) ∧
      normalize w' alphabet = .ok w') ∧
    (∀ v w : Word, v.toFinset.card ≤ alphabet.length → w.toFinset.card ≤ alphabet.length →
      (normalize v alphabet = normalize w alphabet ↔
        ∃ σ : Event → Event, Set.InjOn σ { e | e ∈ v } ∧ v.map σ = w)) ∧
    (∀ u w : Word, normalize w alphabet = .ok w → u <:+ w → normalize u alphabet = .ok u) ∧
    (∀ w : Word, alphabet.length < w.toFinset.card →
      normalize w alphabet = .error (.tooManyLetters (String.join w)) ∧
        (Error.tooManyLetters (String.join w)).kind = .value) := by
  have size : (sortedLetters alphabet).length = alphabet.length :=
    (sortedLetters_perm alphabet).length_eq
  have answers (w : Word) (few : w.toFinset.card ≤ alphabet.length) :
      ∃ w', normalize w alphabet = .ok w' := by
    obtain ⟨w', renamed⟩ := exists_rename_iff.2 (few.trans size.ge)
    exact ⟨w', normalize_eq_ok_iff.2 renamed⟩
  refine ⟨fun w few => ?_, fun v w hv hw => ?_, fun u w normal suffix => ?_, fun w many => ?_⟩
  · obtain ⟨w', normal⟩ := answers w few
    exact ⟨w', normal, renaming_of_normalize distinct normal, normalize_normalize distinct normal⟩
  · obtain ⟨v', first⟩ := answers v hv
    obtain ⟨w', second⟩ := answers w hw
    rw [first, second, Except.ok.injEq]
    exact normalize_eq_iff distinct first second
  · obtain ⟨r, renamed⟩ := normalize_eq_ok_iff.1 normal
    exact normalize_eq_ok_iff.2 (rename_suffix renamed suffix)
  · refine ⟨normalize_eq_error_iff.2 (Option.eq_none_iff_forall_ne_some.2 ?_), rfl⟩
    rintro ⟨w', r⟩ renamed
    have few := exists_rename_iff.1 ⟨w', r, renamed⟩
    omega

end Distinct

/-- What follows for words of two letters and a word of three over an alphabet that is not in
order. -/
theorem normalize_canonical_ba : ["b", "a"].Nodup ∧
    normalize ["x", "y", "x"] ["b", "a"] = .ok ["a", "b", "a"] ∧
    normalize ["a", "b", "a"] ["b", "a"] = .ok ["a", "b", "a"] ∧
    normalize ["x", "y", "x"] ["b", "a"] = normalize ["y", "b", "y"] ["b", "a"] ∧
    normalize ["b", "a"] ["b", "a"] = .ok ["b", "a"] ∧
    normalize ["x", "y", "z"] ["b", "a"] = .error (.tooManyLetters "xyz") := by
  have distinct : ["b", "a"].Nodup := by decide
  obtain ⟨form, same_iff, suffix, error⟩ := normalize_canonical distinct
  have order : sortedLetters ["b", "a"] = ["a", "b"] := by simp [sortedLetters, List.mergeSort]
  have computed : normalize ["x", "y", "x"] ["b", "a"] = .ok ["a", "b", "a"] :=
    normalize_eq_ok_iff.2 ⟨_, by rw [order]; rfl⟩
  have again : normalize ["a", "b", "a"] ["b", "a"] = .ok ["a", "b", "a"] := by
    obtain ⟨w', normal, _, again⟩ := form ["x", "y", "x"] (by decide)
    rwa [← Except.ok.inj (computed.symm.trans normal)] at again
  have renamed : ∃ σ : Event → Event, Set.InjOn σ { e | e ∈ ["x", "y", "x"] } ∧
      ["x", "y", "x"].map σ = ["y", "b", "y"] := by
    refine ⟨fun e => if e = "x" then "y" else "b", ?_, by decide⟩
    simp [Set.InjOn]
  exact ⟨distinct, computed, again, (same_iff _ _ (by decide) (by decide)).2 renamed,
    suffix _ _ again ⟨["a"], rfl⟩, (error ["x", "y", "z"] (by decide)).1⟩

end NetSynthesis.WordSearch
