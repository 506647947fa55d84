import NetSynthesis.Frame
import NetSynthesis.Proofs.ExceptSteps
import NetSynthesis.Proofs.SearchedLists

/-! Locations of events. Which event is where does not depend on the order of the arcs, so that
systems whose arcs carry the same labels and locations have the same locations. Either all events
have one or none has. -/
namespace NetSynthesis.Frame

variable {f g : Frame} {arcs : List Arc} {found others : List (Event × Location)}
  {ls : List (Option Location)} {e : Event} {l : Location}

/-- Some arc with the event carries the location. -/
def Located (arcs : List Arc) (e : Event) (l : Location) : Prop :=
  ∃ a ∈ arcs, a.label = e ∧ a.location = some l

theorem located_cons {a : Arc} : Located (a :: arcs) e l ↔
    (a.label = e ∧ a.location = some l) ∨ Located arcs e l := by
  simp [Located]

def Indexed (found : List (Event × Location)) : Prop := ∀ p ∈ found, found.lookup p.1 = some p.2

theorem lookup_append_single (fresh : found.lookup e = none) (e' : Event) :
    (found ++ [(e, l)]).lookup e' = if e' = e then some l else found.lookup e' := by
  rw [List.lookup_append]
  by_cases same : e' = e
  · subst same; simp [fresh]
  · simp [same, List.lookup_cons, beq_false_of_ne same]

theorem addLocation_spec {a : Arc} (indexed : Indexed found)
    (added : addLocation found a = .ok others) : Indexed others ∧ ∀ e l,
      others.lookup e = some l ↔ found.lookup e = some l ∨ (a.label = e ∧ a.location = some l) := by
  rw [addLocation] at added
  cases place : a.location with
  | none =>
    simp only [place, Except.ok.injEq] at added
    subst added
    exact ⟨indexed, by simp⟩
  | some k =>
    cases known : found.lookup a.label with
    | none =>
      simp only [place, known, Except.ok.injEq] at added
      subst added
      refine ⟨fun p member => ?_, fun e l => ?_⟩
      · rw [lookup_append_single known]
        rcases List.mem_append.1 member with old | last
        · have differ : p.1 ≠ a.label := fun same => by
            have entry := indexed p old
            simp [same, known] at entry
          rw [if_neg differ, indexed p old]
        · rw [List.mem_singleton.1 last]; simp
      · rw [lookup_append_single known]
        split
        · rename_i same
          subst same
          simp [known]
        · rename_i differ
          simp [Ne.symm differ]
    | some old =>
      simp only [place, known] at added
      split at added
      · rename_i same
        subst same
        obtain rfl := Except.ok.inj added
        refine ⟨indexed, fun e l => ⟨.inl, ?_⟩⟩
        rintro (entry | ⟨rfl, entry⟩)
        · exact entry
        · rwa [← Option.some.inj entry]
      · simp at added

theorem foldlM_addLocation {start : List (Event × Location)} (indexed : Indexed start)
    (run : arcs.foldlM addLocation start = .ok found) : Indexed found ∧ ∀ e l,
      found.lookup e = some l ↔ start.lookup e = some l ∨ Located arcs e l := by
  induction arcs generalizing start with
  | nil =>
    obtain rfl := pure_eq_ok.1 run
    exact ⟨indexed, by simp [Located]⟩
  | cons a arcs ih =>
    rw [List.foldlM_cons] at run
    obtain ⟨next, first, rest⟩ := bind_eq_ok.1 run
    obtain ⟨indexed, step⟩ := addLocation_spec indexed first
    obtain ⟨indexed, later⟩ := ih indexed rest
    refine ⟨indexed, fun e l => ?_⟩
    rw [later, step, located_cons, or_assoc]

/-- Arcs that nowhere give an event two locations are taken up without failure. -/
theorem foldlM_addLocation_total (arcs : List Arc) {start : List (Event × Location)}
    (indexed : Indexed start)
    (functional : ∀ e k l, (start.lookup e = some k ∨ Located arcs e k) →
      (start.lookup e = some l ∨ Located arcs e l) → k = l) :
    ∃ found, arcs.foldlM addLocation start = .ok found := by
  induction arcs generalizing start with
  | nil => exact ⟨start, rfl⟩
  | cons a arcs ih =>
    obtain ⟨next, first⟩ : ∃ next, addLocation start a = .ok next := by
      rw [addLocation]
      cases place : a.location with
      | none => exact ⟨start, rfl⟩
      | some l =>
        cases known : start.lookup a.label with
        | none => exact ⟨_, rfl⟩
        | some old =>
          have same : old = l := functional a.label old l (.inl known)
            (.inr ⟨a, List.mem_cons_self, rfl, place⟩)
          exact ⟨start, by simp [same]⟩
    obtain ⟨indexed, step⟩ := addLocation_spec indexed first
    have whole (e : Event) (l : Location) : (next.lookup e = some l ∨ Located arcs e l) →
        (start.lookup e = some l ∨ Located (a :: arcs) e l) := by
      rw [step, located_cons, or_assoc]
      exact id
    obtain ⟨found, rest⟩ := ih indexed fun e k l left right =>
      functional e k l (whole e k left) (whole e l right)
    exact ⟨found, by rw [List.foldlM_cons]; exact bind_eq_ok.2 ⟨next, first, rest⟩⟩

def Conflicting (arcs : List Arc) : Prop := ∃ e k l, Located arcs e k ∧ Located arcs e l ∧ k ≠ l

theorem lookup_gathered (run : arcs.foldlM addLocation [] = .ok found) :
    Indexed found ∧ ∀ e l, found.lookup e = some l ↔ Located arcs e l := by
  obtain ⟨indexed, spec⟩ := foldlM_addLocation (by simp [Indexed]) run
  exact ⟨indexed, by simpa using spec⟩

theorem exists_gathered_iff : (∃ found, arcs.foldlM addLocation [] = .ok found) ↔
    ¬ Conflicting arcs := by
  constructor
  · rintro ⟨found, run⟩ ⟨e, k, l, left, right, differ⟩
    obtain ⟨_, spec⟩ := lookup_gathered run
    rw [← spec] at left right
    exact differ (Option.some.inj (left.symm.trans right))
  · intro agreed
    refine foldlM_addLocation_total arcs (by simp [Indexed]) fun e k l left right => ?_
    by_contra differ
    exact agreed ⟨e, k, l, by simpa using left, by simpa using right, differ⟩

/-! ### From entries to locations -/

/-- The locations of events by the entries found. -/
def locationsBy (events : List Event) (found : List (Event × Location)) :
    Except Error (List (Option Location)) :=
  match found with
  | [] => .ok (List.replicate events.length none)
  | (_, first) :: _ =>
    let missing := events.filter fun e => (found.lookup e).isNone
    if !missing.isEmpty then .error (.partialLocations missing)
    else if found.all (·.2 == first) then .ok (List.replicate events.length none)
    else .ok (events.map fun e => found.lookup e)

theorem locations_eq (f : Frame) :
    f.locations = f.graph.arcs.foldlM addLocation [] >>= locationsBy f.events := by
  rw [locations]
  refine congrArg _ (funext fun found => ?_)
  cases found with
  | nil => rfl
  | cons p found =>
    simp only [locationsBy]
    split
    · rfl
    · split <;> rfl

theorem all_eq_iff (indexed : Indexed found) (k : Location) :
    found.all (·.2 == k) = true ↔ ∀ e l, found.lookup e = some l → l = k := by
  simp only [List.all_eq_true, beq_iff_eq]
  constructor
  · exact fun all e l entry => all (e, l) (mem_of_lookup entry)
  · exact fun all p member => all p.1 p.2 (indexed p member)

/-- Entries count only by what is found under each event. -/
theorem locationsBy_congr (indexed : Indexed found) (otherwise : Indexed others)
    (same : ∀ e, found.lookup e = others.lookup e) (events : List Event) :
    locationsBy events found = locationsBy events others := by
  cases found with
  | nil =>
    cases others with
    | nil => rfl
    | cons q others => simpa [otherwise q (by simp)] using same q.1
  | cons p found =>
    cases others with
    | nil => simpa [indexed p (by simp)] using same p.1
    | cons q others =>
      have all : ((p :: found).all fun r => r.2 == p.2) =
          ((q :: others).all fun r => r.2 == q.2) := by
        rw [Bool.eq_iff_iff, all_eq_iff indexed, all_eq_iff otherwise]
        have entryP := indexed p (by simp)
        have entryQ := otherwise q (by simp)
        constructor
        · intro one e l entry
          rw [one e l ((same e).trans entry), one q.1 q.2 ((same q.1).trans entryQ)]
        · intro one e l entry
          rw [one e l ((same e).symm.trans entry), one p.1 p.2 ((same p.1).symm.trans entryP)]
      simp only [locationsBy, same, all]

/-- Systems with the same events, labels and locations have the same locations. -/
theorem locations_congr (events : f.events = g.events)
    (same : ∀ e l, Located f.graph.arcs e l ↔ Located g.graph.arcs e l)
    (known : f.locations = .ok ls) : g.locations = .ok ls := by
  rw [locations_eq] at known ⊢
  obtain ⟨found, run, rest⟩ := bind_eq_ok.1 known
  obtain ⟨indexed, spec⟩ := lookup_gathered run
  have agreed := exists_gathered_iff.1 ⟨found, run⟩
  simp only [Conflicting, same] at agreed
  obtain ⟨others, otherRun⟩ := exists_gathered_iff.2 agreed
  obtain ⟨otherwise, otherSpec⟩ := lookup_gathered otherRun
  have lookups : ∀ e, found.lookup e = others.lookup e := by
    intro e
    apply Option.ext
    intro l
    rw [spec, otherSpec, same]
  rw [locationsBy_congr indexed otherwise lookups, events] at rest
  exact bind_eq_ok.2 ⟨others, otherRun, rest⟩

/-- Events that count as being at one location have arcs at one location only. -/
theorem eq_of_located {e' : Event} {i j : Nat} {m : Location} (known : f.locations = .ok ls)
    (at_i : f.events[i]? = some e) (at_j : f.events[j]? = some e')
    (same : ls[i]?.getD none = ls[j]?.getD none) (left : Located f.graph.arcs e l)
    (right : Located f.graph.arcs e' m) : l = m := by
  rw [locations_eq] at known
  obtain ⟨found, run, rest⟩ := bind_eq_ok.1 known
  obtain ⟨indexed, spec⟩ := lookup_gathered run
  rw [← spec] at left right
  cases found with
  | nil => simp at left
  | cons p found =>
    simp only [locationsBy] at rest
    split at rest
    · simp at rest
    split at rest
    · rename_i one
      have all := (all_eq_iff indexed p.2).1 one
      rw [all e l left, all e' m right]
    · obtain rfl := Except.ok.inj rest
      simpa [at_i, at_j, left, right] using same

theorem locations_uniform (known : f.locations = .ok ls) :
    ls.length = f.size ∧ ((∀ l ∈ ls, l = none) ∨ ∀ l ∈ ls, l ≠ none) := by
  rw [locations_eq] at known
  obtain ⟨found, _, rest⟩ := bind_eq_ok.1 known
  have unlocated : (List.replicate f.events.length (none : Option Location)).length = f.size :=
    List.length_replicate
  cases found with
  | nil =>
    obtain rfl := Except.ok.inj rest
    exact ⟨unlocated, .inl fun l member => (List.mem_replicate.1 member).2⟩
  | cons p found =>
    simp only [locationsBy] at rest
    split at rest
    · simp at rest
    rename_i complete
    split at rest
    · obtain rfl := Except.ok.inj rest
      exact ⟨unlocated, .inl fun l member => (List.mem_replicate.1 member).2⟩
    · obtain rfl := Except.ok.inj rest
      refine ⟨List.length_map _, .inr fun l member => ?_⟩
      obtain ⟨e, inside, rfl⟩ := List.mem_map.1 member
      simp only [Bool.not_eq_true', Bool.not_eq_false, List.isEmpty_iff] at complete
      have entry := List.filter_eq_nil_iff.1 complete e inside
      simpa using entry

end NetSynthesis.Frame
