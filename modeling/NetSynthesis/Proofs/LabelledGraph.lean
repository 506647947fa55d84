import Mathlib.Data.List.Induction
import Mathlib.Data.Set.Basic
import Mathlib.Logic.Equiv.Defs
import NetSynthesis.Net
import NetSynthesis.TransitionSystem

/-! Behaviour as a graph: nodes, labelled edges and an initial node. Transition systems and nets,
by their firing rule, both have one, so that they can be compared. Two graphs have one language if
paths of one can be followed in the other, and they are isomorphic if, besides, the nodes reached
determine each other. Of graphs that are not isomorphic a word may show that they differ. -/
namespace NetSynthesis

structure LabelledGraph where
  Node : Type
  initial : Node
  Edge : Node → Event → Node → Prop

namespace LabelledGraph

/-- A sequence of edges from one node to another and the word of their labels. -/
inductive Path (g : LabelledGraph) (m : g.Node) : List Event → g.Node → Prop
  | nil : Path g m [] m
  | snoc {n k : g.Node} {w : List Event} {e : Event} :
      Path g m w n → g.Edge n e k → Path g m (w ++ [e]) k

variable {g h : LabelledGraph}

def Reaches (g : LabelledGraph) (n : g.Node) : Prop := ∃ w, g.Path g.initial w n

/-- The words of all paths from the initial node. -/
def language (g : LabelledGraph) : Set (List Event) := { w | ∃ n, g.Path g.initial w n }

/-- An edge is determined by its source and label. -/
def Deterministic (g : LabelledGraph) : Prop :=
  ∀ m e n k, g.Edge m e n → g.Edge m e k → n = k

theorem Path.append {m n k : g.Node} {v w : List Event} (first : g.Path m v n)
    (second : g.Path n w k) : g.Path m (v ++ w) k := by
  induction second with
  | nil => simpa using first
  | snoc _ edge ih => rw [← List.append_assoc]; exact .snoc ih edge

theorem Path.eq_of_nil {m n : g.Node} (path : g.Path m [] n) : m = n := by
  generalize empty : ([] : List Event) = w at path
  cases path with
  | nil => rfl
  | snoc _ _ => simp at empty

theorem Path.last {m k : g.Node} {w : List Event} {e : Event} (path : g.Path m (w ++ [e]) k) :
    ∃ n, g.Path m w n ∧ g.Edge n e k := by
  generalize word : w ++ [e] = v at path
  cases path with
  | nil => simp at word
  | @snoc n _ u a path edge =>
    obtain ⟨rfl, same⟩ := List.append_inj' word rfl
    obtain rfl := List.singleton_inj.1 same
    exact ⟨n, path, edge⟩

theorem Path.split {m k : g.Node} {v w : List Event} (path : g.Path m (v ++ w) k) :
    ∃ n, g.Path m v n ∧ g.Path n w k := by
  induction w using List.reverseRecOn generalizing k with
  | nil => exact ⟨k, by simpa using path, .nil⟩
  | append_singleton w e ih =>
    rw [← List.append_assoc] at path
    obtain ⟨l, before, edge⟩ := path.last
    obtain ⟨n, first, second⟩ := ih before
    exact ⟨n, first, .snoc second edge⟩

/-- In a deterministic graph a word leads to one node at most. -/
theorem Deterministic.path_unique (det : g.Deterministic) {m n k : g.Node} {w : List Event}
    (path : g.Path m w n) (other : g.Path m w k) : n = k := by
  induction path generalizing k with
  | nil => exact other.eq_of_nil
  | snoc _ edge ih =>
    obtain ⟨l, before, last⟩ := other.last
    obtain rfl := ih before
    exact det _ _ _ _ edge last

theorem Path.repeat {m : g.Node} {w : List Event} (loop : g.Path m w m) (k : Nat) :
    g.Path m (List.replicate k w).flatten m := by
  induction k with
  | zero => exact .nil
  | succ k ih => simpa [List.replicate_succ] using loop.append ih

theorem Path.invariant {P : g.Node → Prop} {m n : g.Node} {w : List Event}
    (path : g.Path m w n) (start : P m) (step : ∀ a e b, P a → g.Edge a e b → P b) : P n := by
  induction path with
  | nil => exact start
  | snoc _ edge ih => exact step _ _ _ ih edge

theorem reaches_initial (g : LabelledGraph) : g.Reaches g.initial := ⟨[], .nil⟩

theorem Reaches.step {n k : g.Node} {e : Event} (reached : g.Reaches n) (edge : g.Edge n e k) :
    g.Reaches k := by
  obtain ⟨w, path⟩ := reached
  exact ⟨_, .snoc path edge⟩

/-- What holds initially and is kept by the edges from reached nodes holds for all of them. -/
theorem Reaches.invariant {P : g.Node → Prop} {n : g.Node} (reached : g.Reaches n)
    (start : P g.initial) (step : ∀ a e b, g.Reaches a → P a → g.Edge a e b → P b) : P n := by
  obtain ⟨w, path⟩ := reached
  have both : g.Reaches n ∧ P n := path.invariant (P := fun k => g.Reaches k ∧ P k)
    ⟨reaches_initial g, start⟩
    fun a e b before edge => ⟨before.1.step edge, step a e b before.1 before.2 edge⟩
  exact both.2

/-! ### Comparison -/

/-- The reached nodes of two graphs correspond one to one, and so do the edges between them. -/
structure Isomorphism (g h : LabelledGraph) where
  nodes : { n // g.Reaches n } ≃ { n // h.Reaches n }
  initial_eq : (nodes ⟨g.initial, g.reaches_initial⟩).1 = h.initial
  edge_iff : ∀ m e n, g.Edge m.1 e n.1 ↔ h.Edge (nodes m).1 e (nodes n).1

def Isomorphic (g h : LabelledGraph) : Prop := Nonempty (Isomorphism g h)

/-- A map under which edges from reached nodes can be followed both ways. -/
structure Tracks (g h : LabelledGraph) (image : g.Node → h.Node) : Prop where
  initial : image g.initial = h.initial
  forth : ∀ m e n, g.Reaches m → g.Edge m e n → h.Edge (image m) e (image n)
  back : ∀ m e l, g.Reaches m → h.Edge (image m) e l → ∃ n, g.Edge m e n ∧ image n = l

namespace Tracks

variable {image : g.Node → h.Node}

theorem path_forth (tracks : Tracks g h image) {n : g.Node} {w : List Event}
    (path : g.Path g.initial w n) : h.Path h.initial w (image n) := by
  induction path with
  | nil => rw [tracks.initial]; exact .nil
  | snoc path edge ih => exact .snoc ih (tracks.forth _ _ _ ⟨_, path⟩ edge)

theorem path_back (tracks : Tracks g h image) {l : h.Node} {w : List Event}
    (path : h.Path h.initial w l) : ∃ n, g.Path g.initial w n ∧ image n = l := by
  induction path with
  | nil => exact ⟨_, .nil, tracks.initial⟩
  | snoc _ edge ih =>
    obtain ⟨n, path, rfl⟩ := ih
    obtain ⟨k, next, rfl⟩ := tracks.back _ _ _ ⟨_, path⟩ edge
    exact ⟨k, .snoc path next, rfl⟩

theorem language_eq (tracks : Tracks g h image) : h.language = g.language := by
  ext w
  constructor
  · rintro ⟨l, path⟩
    obtain ⟨n, path, _⟩ := tracks.path_back path
    exact ⟨n, path⟩
  · rintro ⟨n, path⟩
    exact ⟨_, tracks.path_forth path⟩

theorem reaches_image (tracks : Tracks g h image) {n : g.Node} (reached : g.Reaches n) :
    h.Reaches (image n) :=
  by
  obtain ⟨w, path⟩ := reached
  exact ⟨w, tracks.path_forth path⟩

theorem exists_isomorphism (tracks : Tracks g h image)
    (injective : ∀ m n, g.Reaches m → g.Reaches n → image m = image n → m = n) :
    ∃ iso : Isomorphism g h, ∀ n, (iso.nodes n).1 = image n.1 := by
  let forth : { n // g.Reaches n } → { n // h.Reaches n } :=
    fun n => ⟨image n.1, tracks.reaches_image n.2⟩
  have inj : Function.Injective forth := by
    intro m n same
    exact Subtype.ext (injective _ _ m.2 n.2 (congrArg Subtype.val same))
  have surj : Function.Surjective forth := by
    rintro ⟨l, w, path⟩
    obtain ⟨n, source, rfl⟩ := tracks.path_back path
    exact ⟨⟨n, w, source⟩, rfl⟩
  refine ⟨⟨Equiv.ofBijective forth ⟨inj, surj⟩, tracks.initial, fun m e n => ?_⟩, fun _ => rfl⟩
  constructor
  · exact tracks.forth _ _ _ m.2
  · intro edge
    obtain ⟨k, next, same⟩ := tracks.back _ _ _ m.2 edge
    rwa [← injective k n.1 (m.2.step next) n.2 same]

theorem isomorphic (tracks : Tracks g h image)
    (injective : ∀ m n, g.Reaches m → g.Reaches n → image m = image n → m = n) :
    Isomorphic g h :=
  (tracks.exists_isomorphism injective).nonempty

end Tracks

open Classical in
theorem Isomorphic.exists_tracks (same : Isomorphic g h) : ∃ image : g.Node → h.Node,
    Tracks g h image ∧ ∀ m n, g.Reaches m → g.Reaches n → image m = image n → m = n := by
  obtain ⟨iso⟩ := same
  let image (n : g.Node) : h.Node := if reached : g.Reaches n then (iso.nodes ⟨n, reached⟩).1
    else h.initial
  have at_reached (n : { n // g.Reaches n }) : image n.1 = (iso.nodes n).1 := dif_pos n.2
  refine ⟨image, ⟨?_, ?_, ?_⟩, ?_⟩
  · exact (at_reached ⟨_, g.reaches_initial⟩).trans iso.initial_eq
  · intro m e n reached edge
    rw [at_reached ⟨m, reached⟩, at_reached ⟨n, reached.step edge⟩]
    exact (iso.edge_iff ⟨m, reached⟩ e ⟨n, reached.step edge⟩).1 edge
  · intro m e l reached edge
    rw [at_reached ⟨m, reached⟩] at edge
    have found : h.Reaches l := (iso.nodes ⟨m, reached⟩).2.step edge
    obtain ⟨n, target⟩ := iso.nodes.surjective ⟨l, found⟩
    have back : (iso.nodes n).1 = l := congrArg Subtype.val target
    refine ⟨n.1, (iso.edge_iff ⟨m, reached⟩ e n).2 (back ▸ edge), ?_⟩
    exact (at_reached n).trans back
  · intro m n reached other eq
    rw [at_reached ⟨m, reached⟩, at_reached ⟨n, other⟩] at eq
    exact congrArg Subtype.val (iso.nodes.injective (Subtype.ext eq))

theorem Isomorphic.symm (same : Isomorphic g h) : Isomorphic h g := by
  obtain ⟨iso⟩ := same
  have initial : iso.nodes.symm ⟨h.initial, h.reaches_initial⟩ =
      ⟨g.initial, g.reaches_initial⟩ := by
    rw [Equiv.symm_apply_eq]
    exact Subtype.ext iso.initial_eq.symm
  refine ⟨⟨iso.nodes.symm, congrArg Subtype.val initial, fun m e n => ?_⟩⟩
  simpa using (iso.edge_iff (iso.nodes.symm m) e (iso.nodes.symm n)).symm

theorem Isomorphic.trans {k : LabelledGraph} (first : Isomorphic g h) (second : Isomorphic h k) :
    Isomorphic g k := by
  obtain ⟨iso⟩ := first
  obtain ⟨next⟩ := second
  have initial : iso.nodes ⟨g.initial, g.reaches_initial⟩ = ⟨h.initial, h.reaches_initial⟩ :=
    Subtype.ext iso.initial_eq
  refine ⟨⟨iso.nodes.trans next.nodes, ?_, fun m e n => ?_⟩⟩
  · rw [Equiv.trans_apply, initial, next.initial_eq]
  · exact (iso.edge_iff m e n).trans (next.edge_iff (iso.nodes m) e (iso.nodes n))

/-- A relation that pairs the initial nodes, pairs no node twice, and along which edges can be
followed both ways. -/
structure Matches (g h : LabelledGraph) (R : g.Node → h.Node → Prop) : Prop where
  initial : R g.initial h.initial
  image_unique : ∀ m k l, R m k → R m l → k = l
  source_unique : ∀ m n k, R m k → R n k → m = n
  forth : ∀ m e n k, R m k → g.Edge m e n → ∃ l, R n l ∧ h.Edge k e l
  back : ∀ m e k l, R m k → h.Edge k e l → ∃ n, R n l ∧ g.Edge m e n

namespace Matches

variable {R : g.Node → h.Node → Prop}

/-- All reached nodes are paired. -/
theorem exists_image (pairs : Matches g h R) {m : g.Node} (reached : g.Reaches m) : ∃ k, R m k := by
  apply reached.invariant (P := fun m => ∃ k, R m k) ⟨_, pairs.initial⟩
  rintro a e b _ ⟨k, paired⟩ edge
  obtain ⟨l, next, _⟩ := pairs.forth a e b k paired edge
  exact ⟨l, next⟩

open Classical in
theorem exists_isomorphism (pairs : Matches g h R) :
    ∃ iso : Isomorphism g h, ∀ n, R n.1 (iso.nodes n).1 := by
  let image (m : g.Node) : h.Node := if paired : ∃ k, R m k then paired.choose else h.initial
  have at_paired {m : g.Node} {k : h.Node} (paired : R m k) : image m = k := by
    have exists_paired : ∃ k, R m k := ⟨k, paired⟩
    have chosen : image m = exists_paired.choose := dif_pos exists_paired
    rw [chosen]
    exact pairs.image_unique m _ _ exists_paired.choose_spec paired
  have tracks : Tracks g h image := by
    refine ⟨at_paired pairs.initial, fun m e n reached edge => ?_, fun m e l reached edge => ?_⟩
    · obtain ⟨k, paired⟩ := pairs.exists_image reached
      obtain ⟨l, next, follows⟩ := pairs.forth m e n k paired edge
      rwa [at_paired paired, at_paired next]
    · obtain ⟨k, paired⟩ := pairs.exists_image reached
      rw [at_paired paired] at edge
      obtain ⟨n, next, follows⟩ := pairs.back m e k l paired edge
      exact ⟨n, follows, at_paired next⟩
  obtain ⟨iso, at_nodes⟩ := tracks.exists_isomorphism fun m n hm hn same => by
    obtain ⟨k, paired⟩ := pairs.exists_image hm
    obtain ⟨l, other⟩ := pairs.exists_image hn
    rw [at_paired paired, at_paired other] at same
    exact pairs.source_unique m n l (same ▸ paired) other
  refine ⟨iso, fun n => ?_⟩
  obtain ⟨k, paired⟩ := pairs.exists_image n.2
  rwa [at_nodes n, at_paired paired]

theorem isomorphic (pairs : Matches g h R) : Isomorphic g h :=
  pairs.exists_isomorphism.nonempty

end Matches

/-- A word that tells two graphs apart. The nodes it leads to enable different events, or another
word leads to the same node in one of the graphs only. -/
def TellsApart (g h : LabelledGraph) (w : List Event) : Prop :=
  ∃ m k, g.Path g.initial w m ∧ h.Path h.initial w k ∧
    ((∃ e, ¬ ((∃ n, g.Edge m e n) ↔ ∃ l, h.Edge k e l)) ∨
      ∃ v n l, g.Path g.initial v n ∧ h.Path h.initial v l ∧ ¬ (n = m ↔ l = k))

theorem TellsApart.not_isomorphic {w : List Event} (apart : TellsApart g h w)
    (det : h.Deterministic) : ¬ Isomorphic g h := by
  intro same
  obtain ⟨image, tracks, injective⟩ := same.exists_tracks
  obtain ⟨m, k, left, right, differ⟩ := apart
  obtain rfl : image m = k := det.path_unique (tracks.path_forth left) right
  have reached : g.Reaches m := ⟨w, left⟩
  rcases differ with ⟨e, enabled⟩ | ⟨v, n, l, left', right', joined⟩
  · apply enabled
    constructor
    · rintro ⟨n, edge⟩
      exact ⟨image n, tracks.forth m e n reached edge⟩
    · rintro ⟨l, edge⟩
      obtain ⟨n, back, _⟩ := tracks.back m e l reached edge
      exact ⟨n, back⟩
  · obtain rfl : image n = l := det.path_unique (tracks.path_forth left') right'
    exact joined ⟨congrArg image, injective n m ⟨v, left'⟩ reached⟩

end LabelledGraph

/-! ### The behaviour of systems and nets -/

def TransitionSystem.behaviour (ts : TransitionSystem) (root : State) : LabelledGraph where
  Node := State
  initial := root
  Edge s e t := ∃ a ∈ ts.arcs, a.source = s ∧ a.label = e ∧ a.target = t

/-- The firing rule of a net. An edge has the label of the transition that fires. -/
def Net.behaviour (net : Net) : LabelledGraph where
  Node := Marking
  initial := net.initialMarking
  Edge m e k := ∃ t ∈ net.transitions, t.label = e ∧ net.fire m t.id = .ok k

end NetSynthesis
