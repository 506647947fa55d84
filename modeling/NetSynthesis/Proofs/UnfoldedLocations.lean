import NetSynthesis.Proofs.LanguageCompleteness

/-! Locations in the unfolding. The unfolding keeps all events, but only the arcs that leave
reachable states have copies. A location that is given on other arcs only is lost: events may then
be said to have no location, or a conflict may go unnoticed. Apart from two cases in which nothing
depends on what is lost, the locations are the same just if no event loses its location. -/
namespace NetSynthesis

namespace Frame

variable {f g : Frame} {arcs others : List Arc} {events : List Event}
  {found : List (Event × Location)} {ls : List (Option Location)} {e : Event} {l : Location}

/-! ### Tags that are refused -/

/-- Some event has a location and some event has none. -/
def Incomplete (events : List Event) (arcs : List Arc) : Prop :=
  (∃ e l, Located arcs e l) ∧ ∃ e ∈ events, ∀ l, ¬ Located arcs e l

def Rejected (events : List Event) (arcs : List Arc) : Prop :=
  Conflicting arcs ∨ Incomplete events arcs

/-- All events are at one location. -/
def Together (events : List Event) (arcs : List Arc) : Prop :=
  ∃ l, ∀ e ∈ events, ∀ k, Located arcs e k ↔ k = l

theorem rejected_congr (same : ∀ e l, Located arcs e l ↔ Located others e l) :
    Rejected events arcs ↔ Rejected events others := by
  simp only [Rejected, Conflicting, Incomplete, same]

theorem not_rejected_of_unlocated (none : ∀ e l, ¬ Located arcs e l) : ¬ Rejected events arcs := by
  rintro (⟨e, k, _, left, _⟩ | ⟨⟨e, k, left⟩, _⟩)
  · exact none e k left
  · exact none e k left

theorem Together.not_rejected (together : Together events arcs)
    (known : ∀ e l, Located arcs e l → e ∈ events) : ¬ Rejected events arcs := by
  obtain ⟨m, at_m⟩ := together
  rintro (⟨e, k, l, left, right, differ⟩ | ⟨_, e, member, bare⟩)
  · have k_eq := (at_m e (known e k left) k).1 left
    have l_eq := (at_m e (known e k left) l).1 right
    exact differ (k_eq.trans l_eq.symm)
  · exact bare m ((at_m e member m).2 rfl)

theorem exists_locationsBy_iff (spec : ∀ e l, found.lookup e = some l ↔ Located arcs e l)
    (indexed : Indexed found) :
    (∃ ls, locationsBy events found = .ok ls) ↔ ¬ Incomplete events arcs := by
  cases found with
  | nil => simp [locationsBy, Incomplete, ← spec]
  | cons p found =>
    have some : ∃ e l, Located arcs e l := ⟨p.1, p.2, (spec _ _).1 (indexed p (by simp))⟩
    have bare (e : Event) : ((p :: found).lookup e).isNone = true ↔ ∀ l, ¬ Located arcs e l := by
      simp only [← spec, Option.isNone_iff_eq_none, Option.eq_none_iff_forall_ne_some, ne_eq]
    have missing : (events.filter fun e => ((p :: found).lookup e).isNone).isEmpty = true ↔
        ¬ Incomplete events arcs := by
      simp only [List.isEmpty_iff, List.filter_eq_nil_iff, bare, Incomplete, some, true_and]
      push Not
      rfl
    rw [← missing, locationsBy]
    split
    · next incomplete => simpa using incomplete
    · next complete =>
      rw [Bool.not_eq_true, Bool.not_eq_false'] at complete
      simp only [complete, iff_true]
      split
      · exact ⟨_, rfl⟩
      · exact ⟨_, rfl⟩

/-- There are locations unless the tags are refused. -/
theorem exists_locations_iff :
    (∃ ls, f.locations = .ok ls) ↔ ¬ Rejected f.events f.graph.arcs := by
  rw [locations_eq, Rejected, not_or, ← exists_gathered_iff]
  constructor
  · rintro ⟨ls, known⟩
    obtain ⟨found, run, rest⟩ := bind_eq_ok.1 known
    obtain ⟨indexed, spec⟩ := lookup_gathered run
    exact ⟨⟨found, run⟩, (exists_locationsBy_iff spec indexed).1 ⟨ls, rest⟩⟩
  · rintro ⟨⟨found, run⟩, complete⟩
    obtain ⟨indexed, spec⟩ := lookup_gathered run
    obtain ⟨ls, rest⟩ := (exists_locationsBy_iff spec indexed).2 complete
    exact ⟨ls, bind_eq_ok.2 ⟨found, run, rest⟩⟩

theorem toOption_eq_none_iff :
    f.locations.toOption = none ↔ Rejected f.events f.graph.arcs := by
  rw [← not_iff_not, ← exists_locations_iff]
  cases f.locations <;> simp [Except.toOption]

theorem kind_of_foldlM {start : List (Event × Location)} {error : Error}
    (failed : arcs.foldlM addLocation start = .error error) : error.kind = .missingLocation := by
  induction arcs generalizing start with
  | nil => simp [pure, Except.pure] at failed
  | cons a arcs ih =>
    rw [List.foldlM_cons] at failed
    rcases bind_eq_error.1 failed with first | ⟨next, _, later⟩
    · rw [addLocation] at first
      split at first
      · simp at first
      split at first
      · simp at first
      split at first
      · simp at first
      · obtain rfl := Except.error.inj first
        rfl
    · exact ih later

theorem kind_of_locations {error : Error} (failed : f.locations = .error error) :
    error.kind = .missingLocation := by
  rw [locations_eq] at failed
  rcases bind_eq_error.1 failed with gathering | ⟨found, _, rest⟩
  · exact kind_of_foldlM gathering
  · rw [locationsBy.eq_def] at rest
    split at rest
    · simp at rest
    simp only at rest
    split at rest
    · obtain rfl := Except.error.inj rest
      rfl
    · split at rest <;> simp at rest

/-! ### Tags without effect -/

/-- Nothing depends on the tags if there are none or if all events are at one location. -/
theorem locations_eq_replicate_iff (known : f.locations = .ok ls)
    (labels : ∀ e l, Located f.graph.arcs e l → e ∈ f.events) :
    ls = List.replicate f.size none ↔
      (∀ e l, ¬ Located f.graph.arcs e l) ∨ Together f.events f.graph.arcs := by
  rw [locations_eq] at known
  obtain ⟨found, run, rest⟩ := bind_eq_ok.1 known
  obtain ⟨indexed, spec⟩ := lookup_gathered run
  cases found with
  | nil =>
    obtain rfl := Except.ok.inj rest
    refine iff_of_true rfl (.inl fun e l tag => ?_)
    simpa using (spec e l).2 tag
  | cons p found =>
    have first : Located f.graph.arcs p.1 p.2 := (spec _ _).1 (indexed p (by simp))
    simp only [locationsBy] at rest
    split at rest
    · simp at rest
    rename_i complete
    simp only [Bool.not_eq_true', Bool.not_eq_false, List.isEmpty_iff] at complete
    have tagged (e : Event) (member : e ∈ f.events) : ∃ k, (p :: found).lookup e = some k := by
      have entry := List.filter_eq_nil_iff.1 complete e member
      exact Option.ne_none_iff_exists'.1 fun none => entry (by rw [none]; rfl)
    split at rest
    · rename_i one
      have all := (all_eq_iff indexed p.2).1 one
      obtain rfl := Except.ok.inj rest
      refine iff_of_true rfl (.inr ⟨p.2, fun e member k => ⟨fun tag => all e k ((spec e k).2 tag),
        ?_⟩⟩)
      rintro rfl
      obtain ⟨k, entry⟩ := tagged e member
      rw [← all e k entry]
      exact (spec e k).1 entry
    · rename_i several
      obtain rfl := Except.ok.inj rest
      refine iff_of_false (fun same => ?_) ?_
      · have inside := List.mem_map_of_mem (f := fun e => (p :: found).lookup e)
          (labels p.1 p.2 first)
        rw [same] at inside
        simpa [indexed p (by simp)] using (List.mem_replicate.1 inside).2
      · rintro (bare | ⟨m, at_m⟩)
        · exact bare p.1 p.2 first
        · refine several ((all_eq_iff indexed p.2).2 fun e l entry => ?_)
          have tag := (spec e l).1 entry
          have l_eq := (at_m e (labels e l tag) l).1 tag
          have p_eq := (at_m p.1 (labels p.1 p.2 first) p.2).1 first
          exact l_eq.trans p_eq.symm

section Fewer

variable {ms : List (Option Location)} (same : g.events = f.events)
  (fewer : ∀ e l, Located g.graph.arcs e l → Located f.graph.arcs e l)
  (labels : ∀ e l, Located f.graph.arcs e l → e ∈ f.events)

include same fewer labels

/-- A system with only some of the tags of another has the same locations just if it has all tags,
or none and they have no effect. -/
theorem locations_eq_iff (known : f.locations = .ok ls) (known' : g.locations = .ok ms) :
    ms = ls ↔ (∀ e l, Located f.graph.arcs e l → Located g.graph.arcs e l) ∨
      (∀ e l, ¬ Located g.graph.arcs e l) ∧ Together f.events f.graph.arcs := by
  have free := locations_eq_replicate_iff known labels
  have free' := locations_eq_replicate_iff known' fun e l tag => same ▸ labels e l (fewer e l tag)
  have size : g.size = f.size := congrArg List.length same
  rw [size] at free'
  constructor
  · rintro rfl
    by_cases tags : ∃ e l, Located g.graph.arcs e l
    · -- As soon as one event has a location, every event has one, and it has no other.
      refine .inl fun e l tag => ?_
      have complete : ¬ Incomplete f.events g.graph.arcs := fun incomplete =>
        exists_locations_iff.1 ⟨_, known'⟩ (.inr (same ▸ incomplete))
      obtain ⟨k, here⟩ : ∃ k, Located g.graph.arcs e k := by
        by_contra none
        exact complete ⟨tags, e, labels e l tag, fun k here => none ⟨k, here⟩⟩
      have agreed : k = l := by
        by_contra differ
        exact exists_locations_iff.1 ⟨_, known⟩ (.inl ⟨e, k, l, fewer e k here, tag, differ⟩)
      exact agreed ▸ here
    · have bare : ∀ e l, ¬ Located g.graph.arcs e l := fun e l tag => tags ⟨e, l, tag⟩
      rcases free.1 (free'.2 (.inl bare)) with none | together
      · exact .inl fun e l tag => absurd tag (none e l)
      · exact .inr ⟨bare, together⟩
  · rintro (kept | ⟨bare, together⟩)
    · have whole (e : Event) (l : Location) : Located f.graph.arcs e l ↔ Located g.graph.arcs e l :=
        ⟨kept e l, fewer e l⟩
      exact Except.ok.inj (known'.symm.trans (locations_congr same.symm whole known))
    · rw [free.2 (.inr together), free'.2 (.inl bare)]

theorem toOption_eq_iff : g.locations.toOption = f.locations.toOption ↔
    (∀ e l, Located f.graph.arcs e l → Located g.graph.arcs e l) ∨
    Rejected f.events f.graph.arcs ∧ Rejected f.events g.graph.arcs ∨
    (∀ e l, ¬ Located g.graph.arcs e l) ∧ Together f.events f.graph.arcs := by
  have noF := toOption_eq_none_iff (f := f)
  have noG := toOption_eq_none_iff (f := g)
  rw [same] at noG
  have whole (kept : ∀ e l, Located f.graph.arcs e l → Located g.graph.arcs e l) :
      Rejected f.events f.graph.arcs ↔ Rejected f.events g.graph.arcs :=
    rejected_congr fun e l => ⟨kept e l, fewer e l⟩
  by_cases rejectedF : Rejected f.events f.graph.arcs
  · by_cases rejectedG : Rejected f.events g.graph.arcs
    · exact iff_of_true ((noG.2 rejectedG).trans (noF.2 rejectedF).symm)
        (.inr (.inl ⟨rejectedF, rejectedG⟩))
    · refine iff_of_false (fun eq => rejectedG (noG.1 (eq.trans (noF.2 rejectedF)))) ?_
      rintro (kept | ⟨_, rejected⟩ | ⟨_, together⟩)
      · exact rejectedG ((whole kept).1 rejectedF)
      · exact rejectedG rejected
      · exact together.not_rejected labels rejectedF
  by_cases rejectedG : Rejected f.events g.graph.arcs
  · refine iff_of_false (fun eq => rejectedF (noF.1 (eq.symm.trans (noG.2 rejectedG)))) ?_
    rintro (kept | ⟨rejected, _⟩ | ⟨bare, _⟩)
    · exact rejectedF ((whole kept).2 rejectedG)
    · exact rejectedF rejected
    · exact not_rejected_of_unlocated bare rejectedG
  obtain ⟨ls, known⟩ := exists_locations_iff.2 rejectedF
  obtain ⟨ms, known'⟩ := exists_locations_iff.2 (same ▸ rejectedG)
  have equal := locations_eq_iff same fewer labels known known'
  rw [known, known']
  simpa [Except.toOption, rejectedF] using equal

end Fewer

/-- The arcs that leave reachable states. -/
def reachableArcs (f : Frame) : List Arc := f.graph.arcs.filter (f.isReachable ·.source)

end Frame

open NetSynthesis.Frame

variable {ts : TransitionSystem} {root first : State} {u : Unfolding} {trace : State → List Event}
  {f : Frame} {e : Event} {l : Location}

/-- Copies of arcs have the locations that are given on arcs leaving reachable states. -/
theorem Unfolding.Unfolds.located_reachable_iff (unfolds : Unfolds ts root u first trace)
    (rooted : f.Rooted root) (graph : f.graph = ts) :
    Located u.system.arcs e l ↔ Located f.reachableArcs e l := by
  subst graph
  rw [unfolds.located_iff rooted.wellFormed]
  simp only [Located, reachableArcs, List.mem_filter, rooted.isReachable_iff_reaches, and_assoc]

/-- The unfolding has the locations of the system just if no event loses a location that is given
only on arcs leaving unreachable states, or nothing depends on it: either both are refused, or all
locations are lost and all were the same. -/
theorem unfolding_locations_iff (wf : ts.WellFormed) (det : ts.isDeterministic = true)
    (initial : ts.initial = some root) : ∃ f g, Frame.ofSystem ts = .ok f ∧
      Frame.ofLanguage ts = .ok g ∧
      (∀ error, f.locations = .error error ∨ g.locations = .error error →
        error.kind = .missingLocation) ∧
      (g.locations.toOption = f.locations.toOption ↔
        (∀ e l, Located ts.arcs e l → Located f.reachableArcs e l) ∨
        Rejected ts.alphabet ts.arcs ∧ Rejected ts.alphabet f.reachableArcs ∨
        (∀ e l, ¬ Located f.reachableArcs e l) ∧ Together ts.alphabet ts.arcs) := by
  obtain ⟨f, framed, graph, rooted⟩ := Synthesis.exists_ofSystem wf initial
  obtain ⟨u, first, trace, g, unfolds, framed', graph', _⟩ := exists_ofLanguage wf det initial
  refine ⟨f, g, framed, framed', fun error => Or.rec kind_of_locations kind_of_locations, ?_⟩
  have copied {e : Event} {l : Location} :
      Located g.graph.arcs e l ↔ Located f.reachableArcs e l := by
    rw [graph']
    exact unfolds.located_reachable_iff rooted graph
  have events : g.events = f.events := by
    rw [Frame.events, Frame.events, graph', graph, unfolds.grown.alphabet]
  have fewer (e : Event) (l : Location) (tag : Located g.graph.arcs e l) :
      Located f.graph.arcs e l := by
    obtain ⟨a, arc, label, place⟩ := copied.1 tag
    exact ⟨a, (List.mem_filter.1 arc).1, label, place⟩
  have labels (e : Event) (l : Location) (tag : Located f.graph.arcs e l) : e ∈ f.events := by
    obtain ⟨a, arc, rfl, _⟩ := tag
    exact rooted.wellFormed.labels_mem a arc
  rw [toOption_eq_iff events fewer labels, rejected_congr fun _ _ => copied]
  simp only [copied, Frame.events, graph]

/-! ### A system whose unfolding loses a location -/

namespace Synthesis

/-- Only the arc of a state that cannot be reached says where its event is. -/
def orphanSite : TransitionSystem :=
  let near : Arc := ⟨"s0", "a", "s1", some "left"⟩
  let far : Arc := ⟨"orphan", "b", "s0", some "right"⟩
  { initial := some "s0"
    incidences := [⟨"s0", [near], [far]⟩, ⟨"s1", [], [near]⟩, ⟨"orphan", [far], []⟩]
    arcs := [near, far]
    alphabet := ["a", "b"] }

theorem orphanSite_wellFormed : orphanSite.WellFormed := by
  constructor <;> decide

def orphanSiteFrame : Frame := ⟨⟨orphanSite, some "s0", .forward, by decide, _, rfl⟩, rfl, _, rfl⟩

/-- All events of the system have locations, but in the unfolding one seems to have none. -/
theorem locations_lost_orphanSite : ∃ g, orphanSite.WellFormed ∧
    orphanSite.isDeterministic = true ∧ orphanSite.initial = some "s0" ∧
    Frame.ofSystem orphanSite = .ok orphanSiteFrame ∧ Frame.ofLanguage orphanSite = .ok g ∧
    orphanSiteFrame.locations = .ok [some "left", some "right"] ∧
    g.locations = .error (.partialLocations ["b"]) :=
  ⟨_, orphanSite_wellFormed, by decide, rfl, rfl, rfl, rfl, rfl⟩

/-- The location of the second event is given on no other arc, and both systems have tags. -/
theorem unfolding_locations_iff_orphanSite : ∃ f g, Frame.ofSystem orphanSite = .ok f ∧
    Frame.ofLanguage orphanSite = .ok g ∧ g.locations.toOption ≠ f.locations.toOption := by
  obtain ⟨f, g, framed, framed', _, agree⟩ :=
    unfolding_locations_iff orphanSite_wellFormed (by decide) rfl
  obtain rfl : orphanSiteFrame = f := Except.ok.inj (.trans rfl framed)
  refine ⟨_, g, framed, framed', fun same => ?_⟩
  rcases agree.1 same with kept | ⟨rejected, _⟩ | ⟨bare, _⟩
  · have far : Located orphanSite.arcs "b" "right" :=
      ⟨_, List.mem_of_getElem? (i := 1) rfl, rfl, rfl⟩
    obtain ⟨a, near, label, _⟩ := kept "b" "right" far
    obtain rfl := List.mem_singleton.1 near
    exact absurd label (by decide)
  · have known : orphanSiteFrame.locations = .ok [some "left", some "right"] := rfl
    exact exists_locations_iff.1 ⟨_, known⟩ rejected
  · exact bare "a" "left" ⟨_, List.mem_of_getElem? (i := 0) rfl, rfl, rfl⟩

end Synthesis

end NetSynthesis
