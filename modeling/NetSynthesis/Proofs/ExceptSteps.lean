/-! Steps that may fail, taken one after the other. -/
namespace NetSynthesis

variable {ε α β : Type}

theorem bind_eq_ok {x : Except ε α} {g : α → Except ε β} {b : β} :
    x >>= g = .ok b ↔ ∃ a, x = .ok a ∧ g a = .ok b := by
  cases x <;> simp [bind, Except.bind]

theorem bind_eq_error {x : Except ε α} {g : α → Except ε β} {e : ε} :
    x >>= g = .error e ↔ x = .error e ∨ ∃ a, x = .ok a ∧ g a = .error e := by
  cases x <;> simp [bind, Except.bind]

theorem pure_eq_ok {a b : α} : (pure a : Except ε α) = .ok b ↔ a = b := by
  simp [pure, Except.pure]

theorem map_eq_error {x : Except ε α} {g : α → β} {e : ε} :
    x.map g = .error e ↔ x = .error e := by
  cases x <;> simp [Except.map]

theorem exists_of_any {x : Except ε α} {test : α → Bool} (check : x.toOption.any test = true) :
    ∃ a, x = .ok a ∧ test a = true := by
  cases x with
  | error e => simp [Except.toOption] at check
  | ok a => exact ⟨a, rfl, check⟩

variable {step : β → α → Except ε β} {I : β → Prop} {R : β → β → Prop} {Q : α → β → Prop}
  {xs : List α} {b b' : β}

/-- What each step keeps and establishes holds after all of them, if what is established is kept
by the later steps. -/
theorem foldlM_ok (refl : ∀ b, R b b) (trans : ∀ b c d, R b c → R c d → R b d)
    (persist : ∀ a b c, R b c → Q a b → Q a c)
    (each : ∀ a ∈ xs, ∀ b c, I b → step b a = .ok c → I c ∧ R b c ∧ Q a c)
    (start : I b) (run : xs.foldlM step b = .ok b') : I b' ∧ R b b' ∧ ∀ a ∈ xs, Q a b' := by
  induction xs generalizing b with
  | nil =>
    obtain rfl := pure_eq_ok.1 run
    exact ⟨start, refl b, by simp⟩
  | cons a xs ih =>
    rw [List.foldlM_cons] at run
    obtain ⟨c, first, rest⟩ := bind_eq_ok.1 run
    obtain ⟨kept, related, holds⟩ := each a (by simp) b c start first
    obtain ⟨kept', related', later⟩ :=
      ih (fun a' member => each a' (by simp [member])) kept rest
    refine ⟨kept', trans _ _ _ related related', fun a' member => ?_⟩
    rcases List.mem_cons.1 member with rfl | inside
    · exact persist _ _ _ related' holds
    · exact later a' inside

/-- What each step changes in the same way is changed so by all of them in turn. -/
theorem foldlM_view {γ : Type} {v : β → γ} {g : γ → α → γ}
    (each : ∀ a ∈ xs, ∀ b c, I b → step b a = .ok c → I c ∧ v c = g (v b) a)
    (start : I b) (run : xs.foldlM step b = .ok b') :
    I b' ∧ v b' = xs.foldl g (v b) := by
  induction xs generalizing b with
  | nil =>
    obtain rfl := pure_eq_ok.1 run
    exact ⟨start, rfl⟩
  | cons a xs ih =>
    rw [List.foldlM_cons] at run
    obtain ⟨c, first, rest⟩ := bind_eq_ok.1 run
    obtain ⟨kept, changed⟩ := each a (by simp) b c start first
    obtain ⟨last, later⟩ := ih (fun a' member => each a' (by simp [member])) kept rest
    exact ⟨last, by rw [later, changed, List.foldl_cons]⟩

theorem foldlM_invariant (each : ∀ a ∈ xs, ∀ b c, I b → step b a = .ok c → I c) (start : I b)
    (run : xs.foldlM step b = .ok b') : I b' :=
  (foldlM_view (v := fun _ => ()) (g := fun _ _ => ())
    (fun a member b c kept next => ⟨each a member b c kept next, rfl⟩) start run).1

/-- A failure comes from one step after others that have succeeded. -/
theorem foldlM_error {e : ε} (each : ∀ a ∈ xs, ∀ b c, I b → step b a = .ok c → I c)
    (start : I b) (run : xs.foldlM step b = .error e) :
    ∃ a ∈ xs, ∃ c, I c ∧ step c a = .error e := by
  induction xs generalizing b with
  | nil => simp [pure, Except.pure] at run
  | cons a xs ih =>
    rw [List.foldlM_cons] at run
    rcases bind_eq_error.1 run with failed | ⟨c, first, rest⟩
    · exact ⟨a, by simp, b, start, failed⟩
    · obtain ⟨a', member, found⟩ := ih (fun a' member => each a' (by simp [member]))
        (each a (by simp) b c start first) rest
      exact ⟨a', by simp [member], found⟩

/-- Steps that succeed wherever the invariant holds succeed together. -/
theorem foldlM_total (each : ∀ a ∈ xs, ∀ b, I b → ∃ c, step b a = .ok c ∧ I c) (start : I b) :
    ∃ c, xs.foldlM step b = .ok c ∧ I c := by
  induction xs generalizing b with
  | nil => exact ⟨b, rfl, start⟩
  | cons a xs ih =>
    obtain ⟨c, first, kept⟩ := each a (by simp) b start
    obtain ⟨d, rest, last⟩ := ih (fun a' member => each a' (by simp [member])) kept
    exact ⟨d, by rw [List.foldlM_cons]; exact bind_eq_ok.2 ⟨c, first, rest⟩, last⟩

theorem foldlM_of_reached {before after : List α} {a : α} {c : β}
    (reached : before.foldlM step b = .ok c) :
    (before ++ a :: after).foldlM step b = (step c a).bind (after.foldlM step) := by
  rw [List.foldlM_append, reached]
  rfl

/-! ### Two kinds of steps -/

section Lockstep

variable {ε' β' : Type} {step' : β' → α → Except ε' β'} {φ : β → β'} {ψ : ε → ε'}

def carry (φ : β → β') (ψ : ε → ε') : Except ε β → Except ε' β'
  | .ok b => .ok (φ b)
  | .error e => .error (ψ e)

/-- The same elements are gone through in the same way by two kinds of steps, or up to the first
one at which they do not agree. -/
theorem foldlM_lockstep (xs : List α) (b : β) :
    xs.foldlM step' (φ b) = carry φ ψ (xs.foldlM step b) ∨
      ∃ before a after c, xs = before ++ a :: after ∧ before.foldlM step b = .ok c ∧
        before.foldlM step' (φ b) = .ok (φ c) ∧ step' (φ c) a ≠ carry φ ψ (step c a) := by
  induction xs generalizing b with
  | nil => exact .inl rfl
  | cons a xs ih =>
    by_cases agree : step' (φ b) a = carry φ ψ (step b a)
    case neg => exact .inr ⟨[], a, xs, b, rfl, rfl, rfl, agree⟩
    rw [List.foldlM_cons, List.foldlM_cons, agree]
    cases first : step b a with
    | error e => exact .inl rfl
    | ok c =>
      rw [first] at agree
      rcases ih c with same | ⟨before, a', after, d, rfl, reached, reached', differ⟩
      · exact .inl same
      · refine .inr ⟨a :: before, a', after, d, rfl, ?_, ?_, differ⟩
        · rw [List.foldlM_cons]
          exact bind_eq_ok.2 ⟨c, first, reached⟩
        · rw [List.foldlM_cons]
          exact bind_eq_ok.2 ⟨φ c, agree, reached'⟩

end Lockstep

theorem mapM_eq_ok {γ : Type} {g : α → Except ε γ} {h : α → γ}
    (each : ∀ a ∈ xs, g a = .ok (h a)) : xs.mapM g = .ok (xs.map h) := by
  induction xs with
  | nil => rfl
  | cons a xs ih =>
    obtain ⟨first, rest⟩ := List.forall_mem_cons.1 each
    rw [List.mapM_cons]
    exact bind_eq_ok.2 ⟨_, first, bind_eq_ok.2 ⟨_, ih rest, rfl⟩⟩

theorem mapM_isOk_iff {γ : Type} {g : α → Except ε γ} :
    (∃ ys, xs.mapM g = .ok ys) ↔ ∀ a ∈ xs, ∃ y, g a = .ok y := by
  induction xs with
  | nil => simp [pure, Except.pure]
  | cons a xs ih =>
    rw [List.forall_mem_cons, ← ih, List.mapM_cons]
    constructor
    · rintro ⟨ys, run⟩
      obtain ⟨y, first, rest⟩ := bind_eq_ok.1 run
      obtain ⟨zs, others, _⟩ := bind_eq_ok.1 rest
      exact ⟨⟨y, first⟩, zs, others⟩
    · rintro ⟨⟨y, first⟩, zs, others⟩
      exact ⟨_, bind_eq_ok.2 ⟨y, first, bind_eq_ok.2 ⟨zs, others, rfl⟩⟩⟩

theorem exists_of_mem_mapM {γ : Type} {g : α → Except ε γ} {ys : List γ} {y : γ}
    (run : xs.mapM g = .ok ys) (member : y ∈ ys) : ∃ a ∈ xs, g a = .ok y := by
  induction xs generalizing ys with
  | nil =>
    obtain rfl := pure_eq_ok.1 run
    simp at member
  | cons a xs ih =>
    rw [List.mapM_cons] at run
    obtain ⟨z, first, rest⟩ := bind_eq_ok.1 run
    obtain ⟨zs, others, last⟩ := bind_eq_ok.1 rest
    obtain rfl := pure_eq_ok.1 last
    rcases List.mem_cons.1 member with rfl | inside
    · exact ⟨a, by simp, first⟩
    · obtain ⟨b, later, found⟩ := ih others inside
      exact ⟨b, by simp [later], found⟩

theorem exists_of_mapM_eq_error {γ : Type} {g : α → Except ε γ} {e : ε}
    (run : xs.mapM g = .error e) : ∃ a ∈ xs, g a = .error e := by
  induction xs with
  | nil => simp [pure, Except.pure] at run
  | cons a xs ih =>
    rw [List.mapM_cons] at run
    rcases bind_eq_error.1 run with failed | ⟨y, _, rest⟩
    · exact ⟨a, by simp, failed⟩
    · rcases bind_eq_error.1 rest with failed | ⟨ys, _, last⟩
      · obtain ⟨b, member, failed⟩ := ih failed
        exact ⟨b, by simp [member], failed⟩
      · simp [pure, Except.pure] at last

end NetSynthesis
