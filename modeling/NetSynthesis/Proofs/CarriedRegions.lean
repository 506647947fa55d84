import NetSynthesis.Minimization
import NetSynthesis.Proofs.ReachablePart
import NetSynthesis.Proofs.ValidRegions

/-! Regions carried from one frame to an alike one. A region keeps its weights and its tokens; that
the frames have as many events is all that its type needs. What a frame says about a region is then
the same in both frames: its tokens, its normal marking, whether it is valid and in a class, and
which problems it solves. -/
namespace NetSynthesis

namespace Region

variable {n m : Nat} (same : n = m)

/-- The same region over as many events. -/
def cast (r : Region n) : Region m := ⟨r.weights, r.initial, r.length_eq.trans same⟩

@[simp] theorem initial_cast (r : Region n) : (r.cast same).initial = r.initial := rfl

@[simp] theorem effect_cast (r : Region n) : (r.cast same).effect = r.effect := rfl

@[simp] theorem weightAt_cast (r : Region n) (i : Nat) :
    (r.cast same).weightAt i = r.weightAt i := rfl

@[simp] theorem text_cast (r : Region n) (events : List String) :
    (r.cast same).text events = r.text events := rfl

@[simp] theorem isPure_cast (r : Region n) : (r.cast same).isPure = r.isPure := rfl

@[simp] theorem isPlain_cast (r : Region n) : (r.cast same).isPlain = r.isPlain := rfl

@[simp] theorem consumers_cast (r : Region n) : (r.cast same).consumers = r.consumers := by
  subst same; rfl

@[simp] theorem producers_cast (r : Region n) : (r.cast same).producers = r.producers := by
  subst same; rfl

theorem ofEffect_cast (v : IntVector) (k : Int) :
    (ofEffect n v k).cast same = ofEffect m v k := by
  subst same; rfl

theorem trivial_cast : (trivial n).cast same = trivial m := by
  subst same; rfl

theorem regionOf_cast (x : IntVector) :
    (SeparationProgram.regionOf n x).cast same = SeparationProgram.regionOf m x := by
  subst same; rfl

theorem negate_cast (r : Region n) : (r.cast same).negate = r.negate.cast same := rfl

theorem setWeight_cast (r : Region n) (i : Nat) (w : Weight) :
    (r.cast same).setWeight i w = (r.setWeight i w).cast same := rfl

end Region

namespace Frame.Alike

variable {f g : Frame}

theorem size (alike : f.Alike g) : f.size = g.size := congrArg List.length alike.alphabet.symm

variable (alike : f.Alike g) (r : Region f.size)

include alike

/-! ### States and events -/

theorem events_eq : g.events = f.events := alike.alphabet

theorem isReachable_eq (s : State) : g.isReachable s = f.isReachable s := by
  rw [isReachable, isReachable, alike.table]

theorem vector_eq (s : State) : g.vector s = f.vector s := by
  rw [vector, vector, alike.table]

theorem reachable_eq : g.reachable = f.reachable := by
  rw [reachable, reachable, alike.table]

theorem eventIndex?_eq (e : Event) : g.eventIndex? e = f.eventIndex? e := by
  rw [eventIndex?, eventIndex?, alike.events_eq]

theorem edgeVector_eq (a : Arc) : g.edgeVector a = f.edgeVector a := by
  simp only [edgeVector, alike.vector_eq, alike.events_eq]

theorem cycles_eq : g.tree.chords.map g.edgeVector = f.tree.chords.map f.edgeVector := by
  rw [alike.chords]
  exact List.map_congr_left fun a _ => alike.edgeVector_eq a

theorem basis_eq : g.basis = f.basis.map (.cast alike.size) := by
  have kernel (vs : List IntVector) : KernelBasis.of g.size vs = KernelBasis.of f.size vs := by
    rw [alike.size]
  rw [basis, basis, alike.cycles_eq, kernel, List.map_map]
  exact List.map_congr_left fun v _ => (Region.ofEffect_cast alike.size v 0).symm

/-! ### Tokens -/

theorem tokens_cast (s : State) : g.tokens (r.cast alike.size) s = f.tokens r s := by
  rw [tokens, tokens, alike.vector_eq]
  rfl

theorem weightOf_cast (e : Event) : g.weightOf (r.cast alike.size) e = f.weightOf r e := by
  rw [weightOf, weightOf, alike.eventIndex?_eq]
  rfl

theorem normalMarking_cast : g.normalMarking (r.cast alike.size) = f.normalMarking r := by
  rw [normalMarking, normalMarking, alike.table]
  refine List.foldl_ext _ _ _ fun least p member => ?_
  have found : f.isReachable p.1 = true := (mem_table.1 member).1
  simp only [alike.outgoing p.1 found, alike.weightOf_cast, Region.effect_cast]

theorem withNormalMarking_cast :
    g.withNormalMarking (r.cast alike.size) = (f.withNormalMarking r).cast alike.size := by
  rw [withNormalMarking, withNormalMarking, alike.normalMarking_cast]
  rfl

theorem bound_cast : g.bound (r.cast alike.size) = f.bound r := by
  simp only [bound, alike.reachable_eq, Region.initial_cast, funext (alike.tokens_cast r)]

theorem isValid_cast : g.isValid (r.cast alike.size) = f.isValid r := by
  rw [isValid, isValid, alike.reachable_eq]
  congr 1
  rw [Bool.eq_iff_iff, List.all_eq_true, List.all_eq_true]
  refine forall₂_congr fun s member => ?_
  simp only [alike.outgoing s (mem_reachable.1 member), alike.tokens_cast, alike.weightOf_cast]

theorem inClass_cast (c : NetClass) : g.inClass (r.cast alike.size) c = f.inClass r c := by
  simp only [inClass, alike.bound_cast, Region.isPure_cast, Region.isPlain_cast,
    Region.consumers_cast, Region.producers_cast]

theorem satisfies?_cast (c : NetClass) (ls : Option Locations) :
    g.satisfies? (r.cast alike.size) c ls = f.satisfies? r c ls := by
  simp only [satisfies?, alike.inClass_cast, Region.consumers_cast, isLocal]

theorem accepts_cast (c : NetClass) (ls : Locations) :
    g.accepts c ls (r.cast alike.size) = f.accepts c ls r := by
  rw [accepts, accepts, alike.isValid_cast, alike.satisfies?_cast]

/-! ### Problems -/

theorem separates_cast (s t : State) :
    g.separates (r.cast alike.size) s t = f.separates r s t := by
  simp only [separates, alike.isReachable_eq, alike.tokens_cast]

theorem disables_cast (s : State) (e : Event) :
    g.disables (r.cast alike.size) s e = f.disables r s e := by
  simp only [disables, alike.isReachable_eq, alike.tokens_cast, alike.weightOf_cast]

theorem solves_cast (p : Problem) : g.solves (r.cast alike.size) p = f.solves r p := by
  cases p with
  | states s t => exact alike.separates_cast r s t
  | event s e => exact alike.disables_cast r s e

theorem eventProblems_eq : g.eventProblems = f.eventProblems := by
  rw [eventProblems, eventProblems, alike.reachable_eq, alike.events_eq]
  refine List.flatMap_congr fun s member => ?_
  have disabled : g.isDisabled s = f.isDisabled s := by
    funext e
    rw [isDisabled, isDisabled, TransitionSystem.next?, TransitionSystem.next?,
      alike.outgoing s (mem_reachable.1 member)]
  rw [disabled]

theorem problems_eq (stateSeparation : Bool) :
    g.problems stateSeparation = f.problems stateSeparation := by
  rw [problems, problems, alike.reachable_eq, alike.eventProblems_eq]

/-! ### Choice of regions -/

theorem solvers_cast (regions : List (Region f.size)) (p : Problem) :
    g.solvers (regions.map (.cast alike.size)) p = f.solvers regions p := by
  simp [solvers, List.zipIdx_map, List.filter_map, Function.comp_def, alike.solves_cast]

theorem chosenPositions_cast (regions : List (Region f.size)) (stateSeparation : Bool) :
    g.chosenPositions (regions.map (.cast alike.size)) stateSeparation =
      f.chosenPositions regions stateSeparation := by
  simp only [chosenPositions, alike.problems_eq, funext (alike.solvers_cast regions),
    List.length_map]

theorem minimize_cast (regions : List (Region f.size)) (stateSeparation : Bool) :
    g.minimize (regions.map (.cast alike.size)) stateSeparation =
      (f.minimize regions stateSeparation).map (.cast alike.size) := by
  simp only [minimize, alike.chosenPositions_cast, List.map_filterMap, List.getElem?_map]

end Frame.Alike

end NetSynthesis
