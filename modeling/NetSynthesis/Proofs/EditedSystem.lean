import NetSynthesis.Proofs.CurrentTrees

/-! Systems made by edits. An edit keeps the copies of the arcs in agreement, whether it succeeds or
not, and adds no arcs or labels but its own. An edit that is made as a whole is refused just for a
name that is taken, for a state that is missing or for an arc that is there already; it then leaves
the system as it is. -/
namespace NetSynthesis

/-- Edits that are made as a whole or not at all. -/
def Edit.IsWhole : Edit → Prop
  | .addStates _ => False
  | _ => True

namespace TransitionSystem

variable {ts : TransitionSystem} {P : TransitionSystem → Prop} {e : Edit} {err : Error}

def inserted (ts : TransitionSystem) : Edit → List Arc
  | .addArc a => if ts.accepts (.addArc a) then [a] else []
  | _ => []

def insertedArcs (ts : TransitionSystem) : List Edit → List Arc
  | [] => []
  | e :: edits => ts.inserted e ++ (ts.edit e).1.insertedArcs edits

/-- The reasons to refuse an edit that is made as a whole. -/
inductive Refused (ts : TransitionSystem) : Edit → Error → Prop
  | name {s : State} : s ∈ ts.states → Refused ts (.addState (some s)) (.duplicateState s)
  | source {a : Arc} : a.source ∉ ts.states → Refused ts (.addArc a) (.unknownState a.source)
  | target {a : Arc} : a.source ∈ ts.states → a.target ∉ ts.states →
      Refused ts (.addArc a) (.unknownState a.target)
  | arc {a b : Arc} : b ∈ ts.arcs → b.source = a.source → b.label = a.label →
      b.target = a.target → Refused ts (.addArc a) (.duplicateArc a.source a.label a.target)
  | initial {s : State} : s ∉ ts.states → Refused ts (.setInitial s) (.unknownState s)

/-! ### One edit -/

theorem addStates_invariant (holds : P ts)
    (keeps : ∀ ts grown name? s, P ts → addState ts name? = .ok (grown, s) → P grown)
    (names : List (Option State)) : P (ts.addStates names).1 := by
  induction names generalizing ts with
  | nil => exact holds
  | cons name? rest ih =>
    rw [addStates]
    cases added : ts.addState name? with
    | error e => exact holds
    | ok result => exact ih (keeps ts result.1 name? result.2 holds added)

theorem edit_addState (name? : Option State) :
    ts.edit (.addState name?) = ts.addStates [name?] := by
  rw [edit, addStates]
  cases ts.addState name? <;> rfl

theorem commit_invariant {r : Except Error TransitionSystem} (holds : P ts)
    (keeps : ∀ grown, r = .ok grown → P grown) : P (ts.commit r).1 := by
  cases r with
  | error e => exact holds
  | ok grown => exact keeps grown rfl

theorem commit_eq_error {r : Except Error TransitionSystem} :
    (ts.commit r).2 = .error err ↔ r = .error err := by
  cases r <;> simp [commit]

theorem commit_of_error {r : Except Error TransitionSystem}
    (failed : (ts.commit r).2 = .error err) : (ts.commit r).1 = ts := by
  cases r with
  | error e => rfl
  | ok grown => simp [commit] at failed

theorem WellFormed.edit (wf : ts.WellFormed) (e : Edit) : (ts.edit e).1.WellFormed := by
  have several (names : List (Option State)) : (ts.addStates names).1.WellFormed :=
    addStates_invariant wf (fun _ _ _ _ wf added => wf.addState added) names
  cases e with
  | addState name? => rw [edit_addState]; exact several [name?]
  | addStates names => exact several names
  | addArc a => exact commit_invariant wf fun grown added => wf.addArc added
  | addEvent e => exact wf.addEvent e
  | setInitial s => exact commit_invariant wf fun grown changed => wf.setInitial changed

/-- New arcs go last, and new labels come from new arcs or by themselves. -/
theorem edit_spec (ts : TransitionSystem) (e : Edit) :
    (ts.edit e).1.arcs = ts.arcs ++ ts.inserted e ∧ ∀ x, x ∈ (ts.edit e).1.alphabet ↔
      x ∈ ts.alphabet ∨ (∃ a ∈ ts.inserted e, a.label = x) ∨ .addEvent x = e := by
  have several (names : List (Option State)) :
      (ts.addStates names).1.arcs = ts.arcs ∧ (ts.addStates names).1.alphabet = ts.alphabet := by
    apply addStates_invariant
      (P := fun other => other.arcs = ts.arcs ∧ other.alphabet = ts.alphabet)
    · exact ⟨rfl, rfl⟩
    · rintro other grown name? s ⟨arcs, alphabet⟩ added
      obtain ⟨_, _, same, same', _⟩ := addState_spec added
      exact ⟨same.trans arcs, same'.trans alphabet⟩
  cases e with
  | addState name? => simp [edit_addState, several, inserted]
  | addStates names => simp [edit, several, inserted]
  | addArc a =>
    cases added : ts.addArc a with
    | error err => simp [edit, inserted, accepts, added, commit, Except.isOk, Except.toBool]
    | ok grown =>
      obtain ⟨_, arcs, alphabet, _⟩ := addArc_spec added
      simp [edit, inserted, accepts, added, commit, Except.isOk, Except.toBool, arcs, alphabet,
        mem_insertSorted, or_comm, eq_comm]
  | addEvent e => simp [edit, inserted, addEvent, mem_insertSorted, or_comm, eq_comm]
  | setInitial s =>
    have same : (ts.edit (.setInitial s)).1.arcs = ts.arcs ∧
        (ts.edit (.setInitial s)).1.alphabet = ts.alphabet := by
      apply commit_invariant
        (P := fun other => other.arcs = ts.arcs ∧ other.alphabet = ts.alphabet)
      · exact ⟨rfl, rfl⟩
      · intro grown changed
        obtain ⟨_, rfl⟩ := setInitial_eq_ok.1 changed
        exact ⟨rfl, rfl⟩
    simp [same, inserted]

/-! ### Refusals -/

theorem addArc_eq_error_iff (wf : ts.WellFormed) {a : Arc} :
    ts.addArc a = .error err ↔ ts.Refused (.addArc a) err := by
  constructor
  · intro failed
    by_cases source : a.source ∈ ts.states
    · by_cases target : a.target ∈ ts.states
      · obtain ⟨rfl, b, arc, same, label, same'⟩ := addArc_eq_error wf source target failed
        exact .arc arc same label same'
      · obtain rfl : Error.unknownState a.target = err := by
          simpa [addArc, source, target] using failed
        exact .target source target
    · obtain rfl : Error.unknownState a.source = err := by simpa [addArc, source] using failed
      exact .source source
  · intro refused
    cases refused with
    | source missing => simp [addArc, missing]
    | target source missing => simp [addArc, source, missing]
    | @arc _ b arc source label target =>
      have there : (ts.outgoing a.source).any a.sameEdge = true := by
        apply List.any_eq_true.2
        exact ⟨b, wf.mem_outgoing.2 ⟨arc, source⟩, by simp [Arc.sameEdge, source, label, target]⟩
      have ends := wf.arc_ends b arc
      rw [source, target] at ends
      simp [addArc, ends, there]

theorem addState_eq_error_iff {name? : Option State} :
    ts.addState name? = .error err ↔ ts.Refused (.addState name?) err := by
  constructor
  · intro failed
    cases name? with
    | none =>
      obtain ⟨grown, s, added⟩ := exists_addState ts
      simp [added] at failed
    | some s =>
      by_cases taken : s ∈ ts.states
      · obtain rfl : Error.duplicateState s = err := by simpa [addState, taken] using failed
        exact .name taken
      · simp [addState, taken] at failed
  · intro refused
    cases refused with
    | name taken => simp [addState, taken]

theorem setInitial_eq_error_iff {s : State} :
    ts.setInitial s = .error err ↔ ts.Refused (.setInitial s) err := by
  constructor
  · intro failed
    by_cases known : s ∈ ts.states
    · simp [setInitial, known] at failed
    · obtain rfl : Error.unknownState s = err := by simpa [setInitial, known] using failed
      exact .initial known
  · intro refused
    cases refused with
    | initial missing => simp [setInitial, missing]

/-- An edit that is made as a whole fails just for the reasons to refuse it. -/
theorem edit_eq_error_iff (wf : ts.WellFormed) (whole : e.IsWhole) :
    (ts.edit e).2 = .error err ↔ ts.Refused e err := by
  cases e with
  | addState name? => exact commit_eq_error.trans (map_eq_error.trans addState_eq_error_iff)
  | addStates names => exact whole.elim
  | addArc a => exact commit_eq_error.trans (addArc_eq_error_iff wf)
  | addEvent e =>
    constructor
    · intro failed
      simp [edit] at failed
    · intro refused
      cases refused
  | setInitial s => exact commit_eq_error.trans setInitial_eq_error_iff

theorem edit_of_error (whole : e.IsWhole) (failed : (ts.edit e).2 = .error err) :
    (ts.edit e).1 = ts := by
  cases e with
  | addState name? => exact commit_of_error failed
  | addStates names => exact whole.elim
  | addArc a => exact commit_of_error failed
  | addEvent e => simp [edit] at failed
  | setInitial s => exact commit_of_error failed

/-! ### All edits -/

theorem WellFormed.afterEdits (wf : ts.WellFormed) (edits : List Edit) :
    (ts.afterEdits edits).WellFormed := by
  induction edits generalizing ts with
  | nil => exact wf
  | cons e edits ih => exact ih (wf.edit e)

theorem arcs_afterEdits (ts : TransitionSystem) (edits : List Edit) :
    (ts.afterEdits edits).arcs = ts.arcs ++ ts.insertedArcs edits := by
  induction edits generalizing ts with
  | nil => simp [afterEdits, insertedArcs]
  | cons e edits ih =>
    have rest := ih (ts.edit e).1
    rw [(edit_spec ts e).1, List.append_assoc] at rest
    exact rest

theorem mem_alphabet_afterEdits (ts : TransitionSystem) (edits : List Edit) (x : Event) :
    x ∈ (ts.afterEdits edits).alphabet ↔
      x ∈ ts.alphabet ∨ (∃ a ∈ ts.insertedArcs edits, a.label = x) ∨ .addEvent x ∈ edits := by
  induction edits generalizing ts with
  | nil => simp [afterEdits, insertedArcs]
  | cons e edits ih =>
    have rest := ih (ts.edit e).1
    rw [(edit_spec ts e).2 x, or_assoc, or_or_or_comm] at rest
    simp only [insertedArcs, List.mem_append, List.mem_cons, or_and_right, exists_or]
    exact rest

theorem exists_incidence {s : State} (known : s ∈ ts.states) :
    ∃ i ∈ ts.incidences, i.state = s ∧ ts.incidence s = .ok i := by
  cases found : ts.incidence? s with
  | none => exact absurd known (incidence?_eq_none.1 found)
  | some i =>
    obtain ⟨member, same⟩ := mem_of_incidence? found
    exact ⟨i, member, same, by rw [incidence, found]⟩

theorem WellFormed.postset_eq (wf : ts.WellFormed) {s : State} (known : s ∈ ts.states) :
    ts.postset s = .ok (ts.arcs.filter (·.source == s)) := by
  obtain ⟨i, member, rfl, found⟩ := exists_incidence known
  rw [postset, found, ← wf.outgoing_eq i member]
  rfl

theorem WellFormed.preset_eq (wf : ts.WellFormed) {s : State} (known : s ∈ ts.states) :
    ts.preset s = .ok (ts.arcs.filter (·.target == s)) := by
  obtain ⟨i, member, rfl, found⟩ := exists_incidence known
  rw [preset, found, ← wf.incoming_eq i member]
  rfl

theorem WellFormed.initial_eq_none (wf : ts.WellFormed) : ts.initial = none ↔ ts.states = [] := by
  constructor
  · exact wf.initial_isSome
  · intro empty
    apply Option.eq_none_iff_forall_not_mem.2
    intro s initial
    have known := wf.initial_mem s initial
    simp [empty] at known

/-- After any edits of a new system, whether they succeed or not, all its tables say the same. The
arcs are different edges between states, in the order of their insertion, and those kept at a state
are the ones that leave and enter it. The alphabet holds the labels of arcs and the events that were
added. There is an initial state as soon as there are states. An edit that is made as a whole fails
for one of the reasons to refuse it, and then leaves no trace. -/
theorem tables_consistent (name : String) (edits : List Edit) :
    let new : TransitionSystem := { name }
    let ts := new.afterEdits edits
    ts.WellFormed ∧ ts.arcs = new.insertedArcs edits ∧
      (∀ s ∈ ts.states, ts.postset s = .ok (ts.arcs.filter (·.source == s)) ∧
        ts.preset s = .ok (ts.arcs.filter (·.target == s))) ∧
      (∀ x, x ∈ ts.alphabet ↔ (∃ a ∈ ts.arcs, a.label = x) ∨ .addEvent x ∈ edits) ∧
      (ts.initial = none ↔ ts.states = []) ∧
      ∀ (e : Edit) (err : Error), e.IsWhole →
        ((ts.edit e).2 = .error err ↔ ts.Refused e err) ∧
          ((ts.edit e).2 = .error err → (ts.edit e).1 = ts) := by
  intro new ts
  have wf : ts.WellFormed := (WellFormed.empty name).afterEdits edits
  have arcs : ts.arcs = new.insertedArcs edits := arcs_afterEdits new edits
  refine ⟨wf, arcs, fun s known => ⟨wf.postset_eq known, wf.preset_eq known⟩, fun x => ?_,
    wf.initial_eq_none, fun e err whole => ⟨edit_eq_error_iff wf whole, edit_of_error whole⟩⟩
  rw [arcs]
  exact (mem_alphabet_afterEdits new edits x).trans (or_iff_right List.not_mem_nil)

example : ({} : TransitionSystem).afterEdits [.addState (some "s"), .addState (some "s"),
      .addArc ⟨"s", "a", "t", none⟩, .setInitial "t"] =
    ({} : TransitionSystem).afterEdits [.addState (some "s")] := by decide

end TransitionSystem

end NetSynthesis
