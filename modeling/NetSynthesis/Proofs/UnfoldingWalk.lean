import Mathlib.Data.List.Nodup
import Mathlib.Data.List.Perm.Subperm
import NetSynthesis.Proofs.ExceptSteps
import NetSynthesis.Proofs.FreshNames
import NetSynthesis.Proofs.LabelledGraph
import NetSynthesis.Proofs.SearchedLists
import NetSynthesis.Proofs.SimplePaths
import NetSynthesis.Proofs.WellFormedSystem
import NetSynthesis.Unfolding

/-! The walk that unfolds a system. Every arc made is a copy of an arc of the system, and an arc out
of a copied state has a copy there unless the walk has still to follow it. The way of a copy is the
simple path on which the walk has made it. What remains to be followed costs less with every step,
so that the walk ends. -/
namespace NetSynthesis.Unfolding

open ArcPath

variable {ts : TransitionSystem} {u : Unfolding} {w : Walk}

/-- An arc copies another: both ends, the label and the location. -/
structure IsCopy (copies : List (State × State)) (b a : Arc) : Prop where
  source : (b.source, a.source) ∈ copies
  target : (b.target, a.target) ∈ copies
  label : b.label = a.label
  location : b.location = a.location

theorem IsCopy.mono {copies others : List (State × State)} {a b : Arc} (copy : IsCopy copies b a)
    (more : copies ⊆ others) : IsCopy others b a :=
  ⟨more copy.source, more copy.target, copy.label, copy.location⟩

structure Grown (ts : TransitionSystem) (u : Unfolding) : Prop where
  wellFormed : u.system.WellFormed
  alphabet : u.system.alphabet = ts.alphabet
  states : u.copyOf.map (·.1) = u.system.states
  known : ∀ p ∈ u.copyOf, p.2 ∈ ts.states
  arcs : ∀ b ∈ u.system.arcs, ∃ a ∈ ts.arcs, IsCopy u.copyOf b a
  deterministic : ∀ b ∈ u.system.arcs, ∀ c ∈ u.system.arcs,
    b.source = c.source → b.label = c.label → b = c

namespace Grown

theorem unique (grown : Grown ts u) {x s t : State} (first : (x, s) ∈ u.copyOf)
    (second : (x, t) ∈ u.copyOf) : s = t := by
  have nodup : (u.copyOf.map (·.1)).Nodup := grown.states ▸ grown.wellFormed.states_nodup
  exact (Prod.mk.inj (List.inj_on_of_nodup_map nodup first second rfl)).2

theorem mem_states (grown : Grown ts u) {x s : State} (copy : (x, s) ∈ u.copyOf) :
    x ∈ u.system.states :=
  grown.states ▸ List.mem_map_of_mem copy

theorem addState (grown : Grown ts u) {t : State} (known : t ∈ ts.states) :
    ∃ next x, u.system.addState = .ok (next, x) ∧ x ∉ u.system.states ∧
      next.states = u.system.states ++ [x] ∧ next.arcs = u.system.arcs ∧
      next.initial = some (u.system.initial.getD x) ∧ Grown ts ⟨next, u.copyOf ++ [(x, t)]⟩ := by
  obtain ⟨next, x, added⟩ := u.system.exists_addState
  obtain ⟨new, states, arcs, alphabet, initial, _⟩ := TransitionSystem.addState_spec added
  refine ⟨next, x, added, new, states, arcs, initial, grown.wellFormed.addState added,
    alphabet.trans grown.alphabet, ?_, ?_, ?_, ?_⟩
  · rw [states, ← grown.states]; simp
  · intro p member
    rcases List.mem_append.1 member with old | last
    · exact grown.known p old
    · rw [List.mem_singleton.1 last]; exact known
  · intro b member
    obtain ⟨a, inside, copy⟩ := grown.arcs b (arcs ▸ member)
    exact ⟨a, inside, copy.mono (List.subset_append_left _ _)⟩
  · change ∀ b ∈ next.arcs, ∀ c ∈ next.arcs, _
    rw [arcs]
    exact grown.deterministic

theorem addArc (wf : ts.WellFormed) (grown : Grown ts u) {b a : Arc} (arc : a ∈ ts.arcs)
    (copy : IsCopy u.copyOf b a)
    (new : ∀ c ∈ u.system.arcs, c.source = b.source → c.label ≠ b.label) :
    ∃ next, u.system.addArc b = .ok next ∧ next.states = u.system.states ∧
      next.arcs = u.system.arcs ++ [b] ∧ next.initial = u.system.initial ∧
      Grown ts { u with system := next } := by
  have different : (u.system.outgoing b.source).all (!b.sameEdge ·) = true := by
    apply List.all_eq_true.2
    intro c edge
    obtain ⟨member, source⟩ := grown.wellFormed.mem_outgoing.1 edge
    have labels := new c member source
    simp [Arc.sameEdge, Ne.symm labels]
  obtain ⟨next, added⟩ : ∃ next, u.system.addArc b = .ok next :=
    ⟨_, TransitionSystem.addArc_eq_ok.2
      ⟨grown.mem_states copy.source, grown.mem_states copy.target, different, rfl⟩⟩
  obtain ⟨states, arcs, alphabet, initial⟩ := TransitionSystem.addArc_spec added
  refine ⟨next, added, states, arcs, initial, grown.wellFormed.addArc added, ?_,
    grown.states.trans states.symm, grown.known, ?_, ?_⟩
  · rw [alphabet, grown.alphabet, copy.label]
    exact insertSorted_of_mem wf.alphabet_sorted (wf.labels_mem a arc)
  · intro c member
    rw [arcs] at member
    rcases List.mem_append.1 member with old | last
    · exact grown.arcs c old
    · rw [List.mem_singleton.1 last]; exact ⟨a, arc, copy⟩
  · intro c hc d hd source label
    rw [arcs] at hc hd
    rcases List.mem_append.1 hc with oldC | lastC <;> rcases List.mem_append.1 hd with oldD | lastD
    · exact grown.deterministic c oldC d oldD source label
    · obtain rfl := List.mem_singleton.1 lastD
      exact absurd label (new c oldC source)
    · obtain rfl := List.mem_singleton.1 lastC
      exact absurd label.symm (new d oldD source.symm)
    · rw [List.mem_singleton.1 lastC, List.mem_singleton.1 lastD]

end Grown

/-! ### The current path -/

/-- A state on the current path, its copy there and the arcs still to follow. -/
structure Stay where
  state : State
  copy : State
  pending : List Arc

/-- The walk has made copies, and nothing is missing but what it has still to follow. -/
structure Exploring (ts : TransitionSystem) (w : Walk) (trail : List Stay) : Prop where
  stack : w.stack = trail.map fun p => (p.state, p.pending)
  onPath : w.onPath = trail.map fun p => (p.state, p.copy)
  distinct : (trail.map (·.state)).Nodup
  grown : Grown ts w.result
  listed : ∀ p ∈ trail, (p.copy, p.state) ∈ w.result.copyOf
  pending : ∀ p ∈ trail, p.pending <:+ ts.outgoing p.state
  unmade : ∀ p ∈ trail, ∀ a ∈ p.pending, ∀ b ∈ w.result.system.arcs,
    b.source = p.copy → b.label ≠ a.label
  complete : ∀ p ∈ w.result.copyOf, ∀ a ∈ ts.outgoing p.2,
    (∃ b ∈ w.result.system.arcs, b.source = p.1 ∧ IsCopy w.result.copyOf b a) ∨
      ∃ q ∈ trail, q.copy = p.1 ∧ a ∈ q.pending

namespace Exploring

variable {trail above below : List Stay}

theorem eq_of_copy (exploring : Exploring ts w trail) {p q : Stay} (hp : p ∈ trail) (hq : q ∈ trail)
    (same : p.copy = q.copy) : p = q := by
  apply List.inj_on_of_nodup_map exploring.distinct hp hq
  have copy := exploring.listed p hp
  rw [same] at copy
  exact exploring.grown.unique copy (exploring.listed q hq)

theorem mem_states_of_onPath (exploring : Exploring ts w trail) :
    ∀ p ∈ w.onPath, p.2 ∈ w.result.system.states := by
  rw [exploring.onPath]
  intro p member
  obtain ⟨q, inside, rfl⟩ := List.mem_map.1 member
  exact exploring.grown.mem_states (exploring.listed q inside)

theorem next_arc {s x : State} {a : Arc} {more : List Arc} (exploring : Exploring ts w trail)
    (wf : ts.WellFormed) (here : ⟨s, x, a :: more⟩ ∈ trail) :
    a ∈ ts.arcs ∧ (x, a.source) ∈ w.result.copyOf := by
  have suffix := exploring.pending _ here
  obtain ⟨arc, source⟩ := wf.mem_outgoing.1 (suffix.subset List.mem_cons_self)
  exact ⟨arc, source ▸ exploring.listed _ here⟩

/-- Once all its arcs have been followed a state is left. -/
theorem leave {s x : State} (exploring : Exploring ts w (⟨s, x, []⟩ :: below)) :
    Exploring ts ⟨below.map fun p => (p.state, p.pending),
      below.map fun p => (p.state, p.copy), w.result⟩ below := by
  refine ⟨rfl, rfl, (List.nodup_cons.1 exploring.distinct).2, exploring.grown,
    fun p member => exploring.listed p (List.mem_cons_of_mem _ member),
    fun p member => exploring.pending p (List.mem_cons_of_mem _ member),
    fun p member => exploring.unmade p (List.mem_cons_of_mem _ member), fun p member a edge => ?_⟩
  rcases exploring.complete p member a edge with made | ⟨q, inside, copy, waiting⟩
  · exact .inl made
  · rcases List.mem_cons.1 inside with rfl | later
    · simp at waiting
    · exact .inr ⟨q, later, copy, waiting⟩

theorem push (exploring : Exploring ts w trail) {t : State} (known : t ∈ ts.states)
    (off : t ∉ trail.map (·.state)) :
    ∃ next x, w.result.system.addState = .ok (next, x) ∧ x ∉ w.result.system.states ∧
      next.states = w.result.system.states ++ [x] ∧ next.arcs = w.result.system.arcs ∧
      next.initial = some (w.result.system.initial.getD x) ∧
      Exploring ts ⟨(t, ts.outgoing t) :: w.stack, (t, x) :: w.onPath,
        ⟨next, w.result.copyOf ++ [(x, t)]⟩⟩ (⟨t, x, ts.outgoing t⟩ :: trail) := by
  obtain ⟨next, x, added, new, states, arcs, initial, grown⟩ := exploring.grown.addState known
  have more : w.result.copyOf ⊆ w.result.copyOf ++ [(x, t)] := List.subset_append_left _ _
  refine ⟨next, x, added, new, states, arcs, initial, ?_⟩
  refine ⟨by simp [exploring.stack], by simp [exploring.onPath],
    List.nodup_cons.2 ⟨off, exploring.distinct⟩, grown, ?_, ?_, ?_, ?_⟩
  · intro p member
    rcases List.mem_cons.1 member with rfl | old
    · simp
    · exact more (exploring.listed p old)
  · intro p member
    rcases List.mem_cons.1 member with rfl | old
    · exact List.suffix_refl _
    · exact exploring.pending p old
  · intro p member a waiting b arc source
    rw [arcs] at arc
    rcases List.mem_cons.1 member with rfl | old
    · have known := (exploring.grown.wellFormed.arc_ends b arc).1
      rw [source] at known
      exact absurd known new
    · exact exploring.unmade p old a waiting b arc source
  · intro p member a edge
    rcases List.mem_append.1 member with old | last
    · rcases exploring.complete p old a edge with ⟨b, arc, source, copy⟩ | ⟨q, inside, waiting⟩
      · exact .inl ⟨b, arcs.symm ▸ arc, source, copy.mono more⟩
      · exact .inr ⟨q, List.mem_cons_of_mem _ inside, waiting⟩
    · obtain rfl := List.mem_singleton.1 last
      exact .inr ⟨_, List.mem_cons_self, rfl, edge⟩

theorem stay_cases {s x : State} {a : Arc} {more : List Arc}
    (exploring : Exploring ts w (above ++ ⟨s, x, a :: more⟩ :: below)) {p : Stay}
    (member : p ∈ above ++ ⟨s, x, more⟩ :: below) :
    p = ⟨s, x, more⟩ ∨ (p ∈ above ++ ⟨s, x, a :: more⟩ :: below ∧ p.copy ≠ x) := by
  rcases List.mem_cons.1 (List.perm_middle.subset member) with here | other
  · exact .inl here
  · have old : p ∈ above ++ ⟨s, x, a :: more⟩ :: below :=
      List.perm_middle.symm.subset (List.mem_cons_of_mem _ other)
    refine .inr ⟨old, fun same => ?_⟩
    obtain rfl := exploring.eq_of_copy old (by simp : (⟨s, x, a :: more⟩ : Stay) ∈ _) same
    have distinct := (List.perm_middle.map Stay.state).nodup exploring.distinct
    exact (List.nodup_cons.1 distinct).1 (List.mem_map_of_mem other)

theorem label_ne (exploring : Exploring ts w trail) (wf : ts.WellFormed)
    (det : ts.isDeterministic = true) {s x : State} {a b : Arc} {more : List Arc}
    (here : ⟨s, x, a :: more⟩ ∈ trail) (waiting : b ∈ more) : a.label ≠ b.label := by
  have suffix := exploring.pending _ here
  have labels := (wf.labels_nodup det s).sublist (suffix.sublist.map (·.label))
  intro same
  exact (List.nodup_cons.1 labels).1 (List.mem_map.2 ⟨b, waiting, same.symm⟩)

/-- The next arc out of a state on the path gets its copy. -/
theorem follow (wf : ts.WellFormed) (det : ts.isDeterministic = true) {s x y : State} {a : Arc}
    {more : List Arc} (exploring : Exploring ts w (above ++ ⟨s, x, a :: more⟩ :: below))
    (target : (y, a.target) ∈ w.result.copyOf) :
    ∃ next, w.result.system.addArc ⟨x, a.label, y, a.location⟩ = .ok next ∧
      next.states = w.result.system.states ∧
      next.arcs = w.result.system.arcs ++ [⟨x, a.label, y, a.location⟩] ∧
      next.initial = w.result.system.initial ∧
      Exploring ts ⟨(above ++ ⟨s, x, more⟩ :: below).map fun p => (p.state, p.pending), w.onPath,
        { w.result with system := next }⟩ (above ++ ⟨s, x, more⟩ :: below) := by
  have here : (⟨s, x, a :: more⟩ : Stay) ∈ above ++ ⟨s, x, a :: more⟩ :: below := by simp
  obtain ⟨arc, source⟩ := exploring.next_arc wf here
  have copy : IsCopy w.result.copyOf ⟨x, a.label, y, a.location⟩ a := ⟨source, target, rfl, rfl⟩
  obtain ⟨next, added, states, arcs, initial, grown⟩ := exploring.grown.addArc wf arc copy
    fun c member source => exploring.unmade _ here a List.mem_cons_self c member source
  refine ⟨next, added, states, arcs, initial, rfl, ?_, ?_, grown, ?_, ?_, ?_, ?_⟩
  · rw [exploring.onPath]; simp
  · have distinct := exploring.distinct
    simpa using distinct
  · intro p member
    rcases exploring.stay_cases member with rfl | ⟨old, _⟩
    · have listed := exploring.listed _ here
      exact listed
    · exact exploring.listed p old
  · intro p member
    rcases exploring.stay_cases member with rfl | ⟨old, _⟩
    · exact (List.suffix_cons a more).trans (exploring.pending _ here)
    · exact exploring.pending p old
  · intro p member a' waiting b made start
    rw [arcs] at made
    rcases List.mem_append.1 made with earlier | last
    · rcases exploring.stay_cases member with rfl | ⟨old, _⟩
      · exact exploring.unmade _ here a' (List.mem_cons_of_mem _ waiting) b earlier start
      · exact exploring.unmade p old a' waiting b earlier start
    · obtain rfl := List.mem_singleton.1 last
      rcases exploring.stay_cases member with rfl | ⟨_, other⟩
      · have differ : a.label ≠ a'.label := exploring.label_ne wf det here waiting
        exact differ
      · exact absurd start.symm other
  · intro p member a' edge
    rcases exploring.complete p member a' edge with ⟨b, made, start, copy⟩ | ⟨q, old, same, waited⟩
    · exact .inl ⟨b, arcs ▸ List.mem_append_left _ made, start, copy⟩
    · simp only [List.mem_append, List.mem_cons] at old
      rcases old with inside | rfl | inside
      · exact .inr ⟨q, by simp [inside], same, waited⟩
      · rcases List.mem_cons.1 waited with rfl | later
        · exact .inl ⟨_, arcs ▸ List.mem_append_right _ (List.mem_singleton_self _), same, copy⟩
        · exact .inr ⟨⟨s, x, more⟩, by simp, same, later⟩
      · exact .inr ⟨q, by simp [inside], same, waited⟩

end Exploring

/-! ### Ways -/

/-- The ways of the copies on the current path, of which the last comes first: each goes on from
the one before it to a state that has not been visited. -/
inductive Chained (root : State) (way : State → ArcPath) : List (State × State) → Prop
  | empty : Chained root way []
  | start {x : State} : way x = [] → Chained root way [(root, x)]
  | step {a : Arc} {s x y : State} {below : List (State × State)} :
      Chained root way ((s, x) :: below) → a.target ∉ visits root (way x) →
      way y = way x ++ [a] → Chained root way ((a.target, y) :: (s, x) :: below)

namespace Chained

variable {root s t x y : State} {way : State → ArcPath} {onPath below : List (State × State)}

theorem tail {p : State × State} (chained : Chained root way (p :: below)) :
    Chained root way below := by
  cases chained with
  | start => exact .empty
  | step before => exact before

theorem congr {other : State → ArcPath} (chained : Chained root way onPath)
    (same : ∀ p ∈ onPath, other p.2 = way p.2) : Chained root other onPath := by
  induction chained with
  | empty => exact .empty
  | start none => exact .start ((same _ List.mem_cons_self).trans none)
  | @step a s x y below before off next ih =>
    have later : other y = way y := same _ List.mem_cons_self
    have earlier : other x = way x := same _ (List.mem_cons_of_mem _ List.mem_cons_self)
    refine .step (ih fun p member => same p (List.mem_cons_of_mem _ member)) ?_ ?_
    · rwa [earlier]
    · rw [later, earlier, next]

theorem visits_eq (chained : Chained root way ((s, x) :: below)) :
    visits root (way x) = (((s, x) :: below).map (·.1)).reverse := by
  generalize whole : (s, x) :: below = onPath at chained
  induction chained generalizing s x below with
  | empty => simp at whole
  | start none => simp_all [visits]
  | step before off next ih =>
    obtain ⟨⟨rfl, rfl⟩, rfl⟩ : (s = _ ∧ x = _) ∧ below = _ := by simpa using whole
    rw [next, visits_snoc, ih rfl]
    simp

/-- The copies on the current path are where the last way passes their states. -/
theorem eq_upTo (chained : Chained root way ((s, x) :: below)) (on : (t, y) ∈ (s, x) :: below) :
    way y = upTo root (way x) t := by
  generalize whole : (s, x) :: below = onPath at chained on
  induction chained generalizing s x below with
  | empty => simp at on
  | start none => simp_all
  | step before off next ih =>
    obtain ⟨⟨rfl, rfl⟩, rfl⟩ : (s = _ ∧ x = _) ∧ below = _ := by simpa using whole
    rcases List.mem_cons.1 on with last | earlier
    · obtain ⟨rfl, rfl⟩ := Prod.mk.inj last
      rw [next, upTo_last off]
    · have visited := List.mem_map_of_mem (f := Prod.fst) earlier
      rw [← List.mem_reverse, ← before.visits_eq] at visited
      rw [next, upTo_snoc visited]
      exact ih rfl earlier

end Chained

theorem path_mono {system next : TransitionSystem} {first x y : State} {v : List Event}
    (more : system.arcs ⊆ next.arcs) (path : (system.behaviour first).Path x v y) :
    (next.behaviour first).Path x v y := by
  have general {v : List Event} {n : (system.behaviour first).Node}
      (path : (system.behaviour first).Path x v n) : (next.behaviour first).Path x v n := by
    induction path with
    | nil => exact .nil
    | snoc _ edge ih =>
      obtain ⟨a, arc, rest⟩ := edge
      exact .snoc ih ⟨a, more arc, rest⟩
  exact general path

def traceOf (way : State → ArcPath) (x : State) : List Event := (way x).map (·.label)

/-- Every copy has a simple path of the system as its way, and its labels lead to the copy. Arcs
lead where the arcs that they copy lead from the end of the way. -/
structure Charted (ts : TransitionSystem) (root first : State) (u : Unfolding)
    (onPath : List (State × State)) (way : State → ArcPath) : Prop where
  start : way first = []
  simple : ∀ p ∈ u.copyOf, ts.SimplePath root (way p.1) p.2
  reached : ∀ x ∈ u.system.states, (u.system.behaviour first).Path first (traceOf way x) x
  arcs : ∀ b ∈ u.system.arcs, ∃ a ∈ ts.arcs, IsCopy u.copyOf b a ∧
    way b.target = follow root (way b.source) a
  chained : Chained root way onPath

namespace Charted

variable {next : TransitionSystem} {root first s x y : State} {a : Arc}
  {onPath below : List (State × State)} {way : State → ArcPath}

theorem leave {p : State × State} (charted : Charted ts root first u (p :: below) way) :
    Charted ts root first u below way :=
  { charted with chained := charted.chained.tail }

theorem congr (charted : Charted ts root first u onPath way) (grown : Grown ts u)
    (known : ∀ p ∈ onPath, p.2 ∈ u.system.states) (root_mem : first ∈ u.system.states)
    {other : State → ArcPath} (same : ∀ z ∈ u.system.states, other z = way z) :
    Charted ts root first u onPath other := by
  refine ⟨(same first root_mem).trans charted.start, fun p member => ?_, fun z member => ?_,
    fun b member => ?_, charted.chained.congr fun p member => same p.2 (known p member)⟩
  · rw [same p.1 (grown.mem_states member)]
    exact charted.simple p member
  · rw [traceOf, same z member]
    exact charted.reached z member
  · obtain ⟨source, target⟩ := grown.wellFormed.arc_ends b member
    rw [same _ source, same _ target]
    exact charted.arcs b member

/-- A name that no copy has yet can be given a way that goes on from the way of a copy. -/
theorem exists_extension (charted : Charted ts root first u onPath way) (grown : Grown ts u)
    (known : ∀ p ∈ onPath, p.2 ∈ u.system.states) (root_mem : first ∈ u.system.states)
    (x : State) (a : Arc) (here : x ∈ u.system.states) (new : y ∉ u.system.states) :
    ∃ other, other y = other x ++ [a] ∧ Charted ts root first u onPath other := by
  have same : ∀ z ∈ u.system.states, Function.update way y (way x ++ [a]) z = way z :=
    fun z member => Function.update_of_ne (ne_of_mem_of_not_mem member new) _ _
  refine ⟨_, ?_, charted.congr grown known root_mem same⟩
  rw [Function.update_self, same x here]

theorem loop (charted : Charted ts root first u ((s, x) :: below) way) (arc : a ∈ ts.arcs)
    (back : (a.target, y) ∈ (s, x) :: below)
    (copy : IsCopy u.copyOf ⟨x, a.label, y, a.location⟩ a) (states : next.states = u.system.states)
    (arcs : next.arcs = u.system.arcs ++ [⟨x, a.label, y, a.location⟩]) :
    Charted ts root first { u with system := next } ((s, x) :: below) way := by
  have more : u.system.arcs ⊆ next.arcs := arcs ▸ List.subset_append_left _ _
  have visited := List.mem_map_of_mem (f := Prod.fst) back
  rw [← List.mem_reverse, ← charted.chained.visits_eq] at visited
  refine ⟨charted.start, charted.simple,
    fun z member => path_mono more (charted.reached z (states ▸ member)), fun b member => ?_,
    charted.chained⟩
  change b ∈ next.arcs at member
  rw [arcs] at member
  rcases List.mem_append.1 member with old | last
  · exact charted.arcs b old
  · obtain rfl := List.mem_singleton.1 last
    refine ⟨a, arc, copy, ?_⟩
    rw [follow, if_pos visited]
    exact charted.chained.eq_upTo back

theorem descend (charted : Charted ts root first u ((s, x) :: below) way) (arc : a ∈ ts.arcs)
    (here : (x, a.source) ∈ u.copyOf) (known : x ∈ u.system.states)
    (off : a.target ∉ ((s, x) :: below).map (·.1)) (leads : way y = way x ++ [a])
    (states : next.states = u.system.states ++ [y])
    (arcs : next.arcs = u.system.arcs ++ [⟨x, a.label, y, a.location⟩]) :
    Charted ts root first ⟨next, u.copyOf ++ [(y, a.target)]⟩
      ((a.target, y) :: (s, x) :: below) way := by
  have more : u.system.arcs ⊆ next.arcs := arcs ▸ List.subset_append_left _ _
  have last : (⟨x, a.label, y, a.location⟩ : Arc) ∈ next.arcs := by rw [arcs]; simp
  have fresh : a.target ∉ visits root (way x) := by
    rwa [charted.chained.visits_eq, List.mem_reverse]
  refine ⟨charted.start, fun p member => ?_, fun z member => ?_, fun b member => ?_,
    .step charted.chained fresh leads⟩
  · rcases List.mem_append.1 member with old | single
    · exact charted.simple p old
    · obtain rfl := List.mem_singleton.1 single
      rw [leads]
      exact .snoc (charted.simple _ here) arc fresh
  · change z ∈ next.states at member
    rw [states] at member
    rcases List.mem_append.1 member with old | single
    · exact path_mono more (charted.reached z old)
    · obtain rfl := List.mem_singleton.1 single
      rw [traceOf, leads, List.map_append]
      exact .snoc (path_mono more (charted.reached x known)) ⟨_, last, rfl, rfl, rfl⟩
  · change b ∈ next.arcs at member
    rw [arcs] at member
    rcases List.mem_append.1 member with old | single
    · obtain ⟨c, inside, copy, goes⟩ := charted.arcs b old
      exact ⟨c, inside, copy.mono (List.subset_append_left _ _), goes⟩
    · obtain rfl := List.mem_singleton.1 single
      refine ⟨a, arc, ⟨List.mem_append_left _ here, by simp, rfl, rfl⟩, ?_⟩
      rw [follow, if_neg fresh]
      exact leads

end Charted

/-! ### Traces -/

/-- Every copy is reached by a word of its own. An arc continues the word of its source, unless it
goes back to a copy that the word has passed. -/
structure Traced (system : TransitionSystem) (first : State) (trace : State → List Event) :
    Prop where
  start : trace first = []
  reached : ∀ x ∈ system.states, (system.behaviour first).Path first (trace x) x
  closed : ∀ b ∈ system.arcs, trace b.target = trace b.source ++ [b.label] ∨
    ∃ v, (system.behaviour first).Path b.target v b.source ∧ trace b.source = trace b.target ++ v

theorem Grown.behaviour_deterministic (grown : Grown ts u) (first : State) :
    (u.system.behaviour first).Deterministic := by
  rintro _ _ _ _ ⟨b, arc, rfl, rfl, rfl⟩ ⟨c, other, source, label, rfl⟩
  rw [grown.deterministic b arc c other source.symm label.symm]

theorem Charted.traced {root first : State} {onPath : List (State × State)}
    {way : State → ArcPath} (charted : Charted ts root first u onPath way) (grown : Grown ts u) :
    Traced u.system first (traceOf way) := by
  refine ⟨by rw [traceOf, charted.start]; rfl, charted.reached, fun b member => ?_⟩
  obtain ⟨a, arc, copy, leads⟩ := charted.arcs b member
  obtain ⟨source, target⟩ := grown.wellFormed.arc_ends b member
  rw [follow] at leads
  split at leads
  · obtain ⟨rest, whole⟩ := upTo_prefix root (way b.source) a.target
    have word : traceOf way b.source = traceOf way b.target ++ rest.map (·.label) := by
      rw [traceOf, traceOf, leads, ← List.map_append, whole]
    have path := charted.reached _ source
    rw [word] at path
    obtain ⟨n, before, behind⟩ := path.split
    obtain rfl := (grown.behaviour_deterministic first).path_unique before
      (charted.reached _ target)
    exact .inr ⟨_, behind, word⟩
  · rw [traceOf, leads, List.map_append, copy.label]
    exact .inl rfl

/-! ### Costs -/

def stay (arcs free pending : Nat) : Nat :=
  pending + 1 + pending * match free with
    | 0 => 0
    | free + 1 => steps arcs free

theorem steps_eq_stay (arcs free : Nat) : steps arcs free = stay arcs free arcs := by
  cases free <;> simp [steps, stay]

theorem stay_mono {arcs free m n : Nat} (fewer : m ≤ n) : stay arcs free m ≤ stay arcs free n :=
  Nat.add_le_add (Nat.succ_le_succ fewer) (Nat.mul_le_mul_right _ fewer)

/-- What is left of the stays on the current path, of which the last has the fewest states to go
on to. -/
def remaining (ts : TransitionSystem) : List Stay → Nat
  | [] => 0
  | p :: below =>
    stay ts.arcs.length (ts.states.length - (below.length + 1)) p.pending.length +
      remaining ts below

/-- An arc back to the path costs its own step only. -/
theorem remaining_loop (s x : State) (a : Arc) (more : List Arc) (below : List Stay) :
    remaining ts (⟨s, x, more⟩ :: below) < remaining ts (⟨s, x, a :: more⟩ :: below) := by
  simp only [remaining, stay, List.length_cons, Nat.add_mul]
  omega

/-- An arc to a fresh copy also pays for the stay there. -/
theorem remaining_descend (s x t y : State) (a : Arc) {more arcs : List Arc} {below : List Stay}
    (fits : below.length + 2 ≤ ts.states.length) (few : arcs.length ≤ ts.arcs.length) :
    remaining ts (⟨t, y, arcs⟩ :: ⟨s, x, more⟩ :: below) <
      remaining ts (⟨s, x, a :: more⟩ :: below) := by
  obtain ⟨free, total⟩ : ∃ free, ts.states.length - (below.length + 1) = free + 1 :=
    ⟨ts.states.length - (below.length + 2), by omega⟩
  have next : ts.states.length - (below.length + 1 + 1) = free := by omega
  have cost : stay ts.arcs.length free arcs.length ≤ steps ts.arcs.length free :=
    steps_eq_stay .. ▸ stay_mono few
  simp only [remaining, List.length_cons, total, next]
  have bound := cost
  simp only [stay, Nat.add_mul, Nat.one_mul]
  simp only [stay] at bound
  omega

end NetSynthesis.Unfolding
