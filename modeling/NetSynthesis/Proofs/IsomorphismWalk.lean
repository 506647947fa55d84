import Mathlib.Data.List.Sort
import Mathlib.Tactic.Push
import NetSynthesis.Isomorphism
import NetSynthesis.Proofs.ExceptSteps
import NetSynthesis.Proofs.SearchedLists
import NetSynthesis.Proofs.WellFormedSystem

/-! The walk that compares two deterministic systems. Every pair it makes has a word that leads to
both states, so that a conflict between pairs tells the systems apart. If there is none, all pairs
are compared in the end, because there are no more pairs than states, and then they are the reached
states of both systems. -/
namespace NetSynthesis.Isomorphism

open LabelledGraph

variable {left right : TransitionSystem} {s t : State} {pairs pairs' : List Pairing} {p : Pairing}
  {a : Arc} {w : List Event}

/-! ### One arc -/

/-- The target of an arc from a pair is paired with the state that the label leads to. -/
def Followed (right : TransitionSystem) (pairs : List Pairing) (p : Pairing) (a : Arc) : Prop :=
  ∃ q ∈ pairs, q.state = a.target ∧ right.next? p.image a.label = some q.image

theorem Followed.mono (followed : Followed right pairs p a) (grows : pairs <+: pairs') :
    Followed right pairs' p a := by
  obtain ⟨q, member, state, image⟩ := followed
  exact ⟨q, grows.subset member, state, image⟩

theorem follow_cases (answer : follow right p pairs a = .ok pairs') :
    ∃ image, right.next? p.image a.label = some image ∧
      ((pairs' = pairs ∧ ∃ q ∈ pairs, q.state = a.target ∧ q.image = image) ∨
        (pairs' = pairs ++ [⟨a.target, image, p.trace ++ [a.label]⟩] ∧
          a.target ∉ pairs.map (·.state) ∧ image ∉ pairs.map (·.image))) := by
  rw [follow] at answer
  cases leads : right.next? p.image a.label with
  | none => simp [leads] at answer
  | some image =>
    refine ⟨image, rfl, ?_⟩
    simp only [leads] at answer
    cases known : pairs.find? (·.state == a.target) with
    | some q =>
      simp only [known] at answer
      split at answer
      · rename_i same
        have state : q.state = a.target := by simpa using List.find?_some known
        exact .inl ⟨(Except.ok.inj answer).symm, q, List.mem_of_find?_eq_some known, state, same⟩
      · simp at answer
    | none =>
      simp only [known] at answer
      split at answer
      · simp at answer
      · rename_i fresh
        have new : a.target ∉ pairs.map (·.state) := by
          simpa [List.find?_eq_none] using known
        exact .inr ⟨(Except.ok.inj answer).symm, new, by simpa using fresh⟩

theorem follow_error (answer : follow right p pairs a = .error w) : w = p.trace ++ [a.label] ∧
    ∀ image, right.next? p.image a.label = some image →
      ∃ q ∈ pairs, ¬ (q.state = a.target ↔ q.image = image) := by
  rw [follow] at answer
  cases leads : right.next? p.image a.label with
  | none =>
    simp only [leads] at answer
    exact ⟨(Except.error.inj answer).symm, by simp⟩
  | some image =>
    simp only [leads] at answer
    cases known : pairs.find? (·.state == a.target) with
    | some q =>
      simp only [known] at answer
      split at answer
      · simp at answer
      · rename_i differ
        refine ⟨(Except.error.inj answer).symm, ?_⟩
        have state : q.state = a.target := by simpa using List.find?_some known
        simp only [Option.some.injEq, forall_eq']
        exact ⟨q, List.mem_of_find?_eq_some known, fun same => differ (same.1 state)⟩
    | none =>
      simp only [known] at answer
      split at answer
      · rename_i taken
        refine ⟨(Except.error.inj answer).symm, ?_⟩
        obtain ⟨q, member, same⟩ := List.any_eq_true.1 taken
        have other : q.state ≠ a.target := by simpa using List.find?_eq_none.1 known q member
        simp only [Option.some.injEq, forall_eq']
        exact ⟨q, member, fun both => other (both.2 (by simpa using same))⟩
      · simp at answer

/-! ### The walk -/

/-- What the walk keeps: it begins with the first states, one word leads to both states of a pair,
and no state is in two pairs. -/
structure Sound (left right : TransitionSystem) (s t : State) (pairs : List Pairing) : Prop where
  start : ⟨s, t, []⟩ ∈ pairs
  left_path : ∀ p ∈ pairs, (left.behaviour s).Path s p.trace p.state
  right_path : ∀ p ∈ pairs, (right.behaviour t).Path t p.trace p.image
  states_nodup : (pairs.map (·.state)).Nodup
  images_nodup : (pairs.map (·.image)).Nodup

theorem Sound.first : Sound left right s t [⟨s, t, []⟩] := by
  refine ⟨by simp, ?_, ?_, by simp, by simp⟩ <;> simpa using .nil

/-- A pair has been compared if its states enable the same events and all arcs have been
followed. -/
structure Compared (left right : TransitionSystem) (pairs : List Pairing) (p : Pairing) :
    Prop where
  enabled : left.enabled p.state = right.enabled p.image
  followed : ∀ a ∈ left.outgoing p.state, Followed right pairs p a

theorem Compared.mono (compared : Compared left right pairs p) (grows : pairs <+: pairs') :
    Compared left right pairs' p :=
  ⟨compared.enabled, fun a edge => (compared.followed a edge).mono grows⟩

variable (wfl : left.WellFormed) (wfr : right.WellFormed) (detr : right.isDeterministic = true)

include wfl wfr detr

theorem Sound.follow (sound : Sound left right s t pairs) (member : p ∈ pairs)
    (edge : a ∈ left.outgoing p.state) (answer : follow right p pairs a = .ok pairs') :
    Sound left right s t pairs' ∧ pairs <+: pairs' ∧ Followed right pairs' p a := by
  obtain ⟨image, leads, ⟨rfl, q, known, state, rfl⟩ | ⟨rfl, new, fresh⟩⟩ := follow_cases answer
  · exact ⟨sound, List.prefix_rfl, q, known, state, leads⟩
  have onLeft : (left.behaviour s).Path s (p.trace ++ [a.label]) a.target := by
    obtain ⟨inside, source⟩ := wfl.mem_outgoing.1 edge
    exact .snoc (sound.left_path p member) ⟨a, inside, source, rfl, rfl⟩
  have onRight : (right.behaviour t).Path t (p.trace ++ [a.label]) image :=
    .snoc (sound.right_path p member) ((wfr.next?_eq_some detr t).1 leads)
  have added : Followed right (pairs ++ [⟨a.target, image, p.trace ++ [a.label]⟩]) p a :=
    ⟨⟨a.target, image, p.trace ++ [a.label]⟩, by simp, rfl, leads⟩
  refine ⟨⟨?_, ?_, ?_, ?_, ?_⟩, List.prefix_append _ _, added⟩
  · exact List.mem_append_left _ sound.start
  · simpa [or_imp, forall_and] using ⟨sound.left_path, onLeft⟩
  · simpa [or_imp, forall_and] using ⟨sound.right_path, onRight⟩
  · rw [List.map_append]
    exact List.nodup_append'.2 ⟨sound.states_nodup, by simp, by simpa using new⟩
  · rw [List.map_append]
    exact List.nodup_append'.2 ⟨sound.images_nodup, by simp, by simpa using fresh⟩

theorem Sound.round {k : Nat} (sound : Sound left right s t pairs)
    (answer : round left right pairs k = .ok pairs') : Sound left right s t pairs' ∧
      pairs <+: pairs' ∧ ∀ p, pairs[k]? = some p → Compared left right pairs' p := by
  rw [Isomorphism.round] at answer
  cases found : pairs[k]? with
  | none =>
    simp only [found] at answer
    obtain rfl := Except.ok.inj answer
    exact ⟨sound, List.prefix_rfl, by simp⟩
  | some p =>
    simp only [found] at answer
    split at answer
    · rename_i enabled
      obtain ⟨⟨sound, _⟩, grows, followed⟩ := foldlM_ok
        (I := fun ps => Sound left right s t ps ∧ p ∈ ps) (R := fun ps qs => ps <+: qs)
        (Q := fun a ps => Followed right ps p a) (fun _ => List.prefix_rfl)
        (fun _ _ _ => List.IsPrefix.trans) (fun _ _ _ grows followed => followed.mono grows)
        (fun a edge ps qs kept step => by
          obtain ⟨sound, grows, followed⟩ := kept.1.follow wfl wfr detr kept.2 edge step
          exact ⟨⟨sound, grows.subset kept.2⟩, grows, followed⟩)
        ⟨sound, List.mem_of_getElem? found⟩ answer
      refine ⟨sound, grows, fun q first => ?_⟩
      obtain rfl := Option.some.inj first
      exact ⟨enabled, followed⟩
    · simp at answer

theorem rounds_compared (n : Nat)
    (answer : (List.range n).foldlM (round left right) [⟨s, t, []⟩] = .ok pairs) :
    Sound left right s t pairs ∧
      ∀ i < n, ∀ p, pairs[i]? = some p → Compared left right pairs p := by
  induction n generalizing pairs with
  | zero =>
    obtain rfl := pure_eq_ok.1 answer
    exact ⟨.first, by simp⟩
  | succ n ih =>
    rw [List.range_succ, List.foldlM_append] at answer
    obtain ⟨middle, before, last⟩ := bind_eq_ok.1 answer
    obtain ⟨pairs, step, same⟩ := bind_eq_ok.1 last
    obtain rfl := pure_eq_ok.1 same
    obtain ⟨sound, done⟩ := ih before
    obtain ⟨sound, grows, compared⟩ := sound.round wfl wfr detr step
    refine ⟨sound, settled_succ grows (fun nothing => ?_) ?_ compared⟩
    · simp only [Isomorphism.round, nothing] at step
      exact (Except.ok.inj step).symm
    · exact fun i bound p found => (done i bound p found).mono grows

/-! ### What the walk says -/

omit detr wfr in
theorem Sound.length_le (sound : Sound left right s t pairs) (start : s ∈ left.states) :
    pairs.length ≤ left.states.length := by
  have inside : pairs.map (·.state) ⊆ left.states := by
    simp only [List.subset_def, List.forall_mem_map]
    intro p member
    apply (sound.left_path p member).invariant (P := fun x : State => x ∈ left.states) start
    rintro _ _ _ _ ⟨a, arc, _, _, rfl⟩
    exact (wfl.arc_ends a arc).2
  simpa using (List.subperm_of_subset sound.states_nodup inside).length_le

/-- Two states are paired. -/
def Pairs (pairs : List Pairing) (x y : State) : Prop := ∃ p ∈ pairs, p.state = x ∧ p.image = y

/-- If the walk ends, its pairs are the reached states, and the systems agree on them. -/
theorem matches_of_walk (start : s ∈ left.states) (answer : walk left right s t = .ok pairs) :
    Matches (left.behaviour s) (right.behaviour t) (Pairs pairs) ∧
      ∀ p ∈ pairs, (left.behaviour s).Reaches p.state := by
  obtain ⟨sound, compared⟩ := rounds_compared wfl wfr detr _ answer
  have all (p : Pairing) (member : p ∈ pairs) : Compared left right pairs p := by
    obtain ⟨i, found⟩ := List.mem_iff_getElem?.1 member
    have inside : i < pairs.length := (List.getElem?_eq_some_iff.1 found).1
    exact compared i (inside.trans_le (sound.length_le wfl start)) p found
  refine ⟨⟨⟨_, sound.start, rfl, rfl⟩, ?_, ?_, ?_, ?_⟩, fun p member =>
    ⟨p.trace, sound.left_path p member⟩⟩
  · rintro _ _ _ ⟨p, hp, state, rfl⟩ ⟨q, hq, state', rfl⟩
    rw [List.inj_on_of_nodup_map sound.states_nodup hp hq (state.trans state'.symm)]
  · rintro _ _ _ ⟨p, hp, rfl, image⟩ ⟨q, hq, rfl, image'⟩
    rw [List.inj_on_of_nodup_map sound.images_nodup hp hq (image.trans image'.symm)]
  · rintro _ _ _ _ ⟨p, hp, rfl, rfl⟩ ⟨a, arc, source, rfl, rfl⟩
    obtain ⟨q, hq, state, leads⟩ :=
      (all p hp).followed a (wfl.mem_outgoing.2 ⟨arc, source⟩)
    exact ⟨q.image, ⟨q, hq, state, rfl⟩, (wfr.next?_eq_some detr t).1 leads⟩
  · rintro _ e _ y ⟨p, hp, rfl, rfl⟩ edge
    have enabled : e ∈ left.enabled p.state := by
      rw [(all p hp).enabled]
      exact (wfr.mem_enabled t).2 ⟨y, edge⟩
    obtain ⟨_, a, arc, source, rfl, rfl⟩ := (wfl.mem_enabled s).1 enabled
    obtain ⟨q, hq, state, leads⟩ :=
      (all p hp).followed a (wfl.mem_outgoing.2 ⟨arc, source⟩)
    obtain rfl : q.image = y := (wfr.behaviour_deterministic detr t) _ _ _ _
      ((wfr.next?_eq_some detr t).1 leads) edge
    exact ⟨a.target, ⟨q, hq, state, rfl⟩, a, arc, source, rfl, rfl⟩

/-- If the walk fails, its word tells the systems apart. -/
theorem tellsApart_of_walk (answer : walk left right s t = .error w) :
    TellsApart (left.behaviour s) (right.behaviour t) w := by
  obtain ⟨k, _, pairs, sound, failed⟩ := foldlM_error (I := Sound left right s t)
    (fun _ _ _ _ sound step => (sound.round wfl wfr detr step).1) .first answer
  rw [Isomorphism.round] at failed
  cases found : pairs[k]? with
  | none => simp [found] at failed
  | some p =>
    simp only [found] at failed
    have member : p ∈ pairs := List.mem_of_getElem? found
    split at failed
    · rename_i enabled
      obtain ⟨a, edge, ps, ⟨sound, member⟩, conflict⟩ := foldlM_error
        (I := fun ps => Sound left right s t ps ∧ p ∈ ps)
        (fun a edge ps qs kept step => by
          obtain ⟨sound, grows, _⟩ := kept.1.follow wfl wfr detr kept.2 edge step
          exact ⟨sound, grows.subset kept.2⟩) ⟨sound, member⟩ failed
      obtain ⟨rfl, clash⟩ := follow_error conflict
      obtain ⟨arc, source⟩ := wfl.mem_outgoing.1 edge
      have arrow : (left.behaviour s).Edge p.state a.label a.target := ⟨a, arc, source, rfl, rfl⟩
      have possible : a.label ∈ right.enabled p.image := by
        rw [← enabled]
        exact (wfl.mem_enabled s).2 ⟨_, arrow⟩
      obtain ⟨image, other⟩ := (wfr.mem_enabled t).1 possible
      obtain ⟨q, hq, differ⟩ := clash image ((wfr.next?_eq_some detr t).2 other)
      exact ⟨a.target, image, .snoc (sound.left_path p member) arrow,
        .snoc (sound.right_path p member) other,
        .inr ⟨q.trace, q.state, q.image, sound.left_path q hq, sound.right_path q hq, differ⟩⟩
    · rename_i differ
      obtain rfl := Except.error.inj failed
      refine ⟨p.state, p.image, sound.left_path p member, sound.right_path p member, .inl ?_⟩
      by_contra same
      push Not at same
      apply differ
      refine (left.enabled_sorted _).eq_of_mem_iff (right.enabled_sorted _) fun {e} => ?_
      rw [wfl.mem_enabled s, wfr.mem_enabled t]
      exact same e

end NetSynthesis.Isomorphism
