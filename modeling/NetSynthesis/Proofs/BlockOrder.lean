import NetSynthesis.Proofs.UnseparatedStates

/-! The order of the blocks of states that no region tells apart. A region splits every block where
it stands, the part with the first state of the block before the others, so that two blocks stand as
the first region that told them apart has put them. Later regions may take from a part the state for
which it was put in front, and then the blocks are not in the order of their first states. -/
namespace NetSynthesis

/-- One of the first states comes before all of the others in the order of the system. -/
def TransitionSystem.StartsBefore (ts : TransitionSystem) (xs ys : Set State) : Prop :=
  ∃ s ∈ xs, ∀ t ∈ ys, ts.states.idxOf s < ts.states.idxOf t

theorem TransitionSystem.StartsBefore.asymm {ts : TransitionSystem} {xs ys : Set State}
    (before : ts.StartsBefore xs ys) : ¬ ts.StartsBefore ys xs := by
  obtain ⟨s, inXs, first⟩ := before
  rintro ⟨t, inYs, other⟩
  exact Nat.lt_asymm (first t inYs) (other s inXs)

namespace Frame

variable {f : Frame} {regions : List (Region f.size)} {r : Region f.size} {s t : State}

/-- The states like `s` start before those like `t` as soon as a region, the `k`-th one, tells both
apart. -/
def PutBefore (f : Frame) (regions : List (Region f.size)) (s t : State) : Prop :=
  ∃ k r, regions[k]? = some r ∧ (∀ q ∈ regions.take k, f.tokens q s = f.tokens q t) ∧
    f.tokens r s ≠ f.tokens r t ∧
    f.graph.StartsBefore {a | f.Indistinct (regions.take (k + 1)) s a}
      {b | f.Indistinct (regions.take (k + 1)) t b}

theorem le_of_take {j k : Nat} (at_j : regions[j]? = some r) (apart : f.tokens r s ≠ f.tokens r t)
    (same : ∀ q ∈ regions.take k, f.tokens q s = f.tokens q t) : k ≤ j := by
  by_contra before
  obtain ⟨inside, rfl⟩ := List.getElem?_eq_some_iff.1 at_j
  exact apart (same _ (List.mem_take_iff_getElem.2 ⟨j, by omega, rfl⟩))

theorem PutBefore.asymm (before : f.PutBefore regions s t) : ¬ f.PutBefore regions t s := by
  obtain ⟨j, q, at_j, same, apart, first⟩ := before
  rintro ⟨k, r, at_k, same', apart', first'⟩
  have up : j ≤ k := le_of_take at_k apart'.symm same
  have down : k ≤ j := le_of_take at_j apart.symm same'
  obtain rfl : j = k := Nat.le_antisymm up down
  exact first.asymm first'

theorem PutBefore.append (before : f.PutBefore regions s t) (more : List (Region f.size)) :
    f.PutBefore (regions ++ more) s t := by
  obtain ⟨k, r, at_k, rest⟩ := before
  have inside := (List.getElem?_eq_some_iff.1 at_k).1
  refine ⟨k, r, by rwa [List.getElem?_append_left inside], ?_⟩
  rwa [List.take_append_of_le_length (Nat.le_of_lt inside),
    List.take_append_of_le_length (Nat.succ_le_of_lt inside)]

/-! ### The blocks in their order -/

theorem unseparatedBlocks_concat (regions : List (Region f.size)) (r : Region f.size) :
    f.unseparatedBlocks (regions ++ [r]) =
      (f.unseparatedBlocks regions).flatMap (keyedGroups (f.tokens r)) := by
  rw [unseparatedBlocks, List.foldl_append, List.foldl_cons, List.foldl_nil, split_eq]
  rfl

theorem sublist_of_mem_unseparatedBlocks {block : List State}
    (listed : block ∈ f.unseparatedBlocks regions) : block.Sublist f.graph.states := by
  induction regions using List.reverseRecOn generalizing block with
  | nil =>
    obtain rfl := List.mem_singleton.1 (List.mem_filter.1 listed).1
    rw [reachable_eq]
    exact List.filter_sublist
  | append_singleton regions r ih =>
    rw [unseparatedBlocks_concat] at listed
    obtain ⟨whole, before, part⟩ := List.mem_flatMap.1 listed
    exact (sublist_of_mem_keyedGroups part).trans (ih before)

theorem pairwise_states (wf : f.graph.WellFormed) :
    f.graph.states.Pairwise fun s t => f.graph.states.idxOf s < f.graph.states.idxOf t := by
  refine List.pairwise_iff_getElem.2 fun i j inside within less => ?_
  rwa [wf.states_nodup.idxOf_getElem, wf.states_nodup.idxOf_getElem]

/-- Where the last region tells states of a block apart, it puts their parts as they start. -/
theorem putBefore_concat {g h : List State} (wf : f.graph.WellFormed)
    (first : g ∈ f.unseparatedBlocks (regions ++ [r]))
    (second : h ∈ f.unseparatedBlocks (regions ++ [r])) (inG : s ∈ g) (inH : t ∈ h)
    (together : f.Indistinct regions s t) (apart : f.tokens r s ≠ f.tokens r t)
    (starts : f.graph.StartsBefore {a | a ∈ g} {b | b ∈ h}) :
    f.PutBefore (regions ++ [r]) s t := by
  have classes := isClasses_unseparatedBlocks wf (regions ++ [r])
  have all : (regions ++ [r]).take (regions.length + 1) = regions ++ [r] :=
    List.take_of_length_le (by simp)
  refine ⟨regions.length, r, by simp, by simpa using together.2.2, apart, ?_⟩
  rw [all]
  simpa only [classes.mem_iff g first s inG, classes.mem_iff h second t inH] using starts

/-- The blocks stand as the first region that told them apart has put them. -/
theorem pairwise_putBefore (wf : f.graph.WellFormed) (regions : List (Region f.size)) :
    (f.unseparatedBlocks regions).Pairwise fun g h =>
      ∀ s ∈ g, ∀ t ∈ h, f.PutBefore regions s t := by
  induction regions using List.reverseRecOn with
  | nil => exact List.Pairwise.filter _ (List.pairwise_singleton _ _)
  | append_singleton regions r ih =>
    have classes := isClasses_unseparatedBlocks wf regions
    have listed {block g : List State} (inside : block ∈ f.unseparatedBlocks regions)
        (part : g ∈ keyedGroups (f.tokens r) block) :
        g ∈ f.unseparatedBlocks (regions ++ [r]) := by
      rw [unseparatedBlocks_concat]
      exact List.mem_flatMap.2 ⟨block, inside, part⟩
    rw [unseparatedBlocks_concat]
    refine List.pairwise_flatMap.2 ⟨fun block inside => ?_, ih.imp fun before => ?_⟩
    · -- Both are parts of one block, which the last region splits.
      have ordered := (pairwise_states wf).sublist (sublist_of_mem_unseparatedBlocks inside)
      have apart := disjoint_keyedGroups (f.tokens r) block
      refine ((pairwise_keyedGroups ordered).and apart).imp_of_mem
        fun {g h} first second both s inG t inH => ?_
      have inBlock := (sublist_of_mem_keyedGroups first).subset inG
      have inBlock' := (sublist_of_mem_keyedGroups second).subset inH
      refine putBefore_concat wf (listed inside first) (listed inside second) inG inH
        ((classes.mem_iff block inside s inBlock t).1 inBlock') (fun same => ?_) both.1
      exact both.2 ((mem_iff_of_keyedGroups first inG).2 ⟨inBlock, inBlock', same⟩) inH
    · intro g first h second s inG t inH
      have inBlock := (sublist_of_mem_keyedGroups first).subset inG
      have inBlock' := (sublist_of_mem_keyedGroups second).subset inH
      exact (before s inBlock t inBlock').append [r]

/-- The blocks are in the order of their first states just if no block has lost the lead with which
it was put before another. -/
theorem pairwise_startsBefore_iff (wf : f.graph.WellFormed) (regions : List (Region f.size)) :
    ((f.unseparatedBlocks regions).Pairwise fun g h =>
        f.graph.StartsBefore {s | s ∈ g} {t | t ∈ h}) ↔
      ∀ g ∈ f.unseparatedBlocks regions, ∀ h ∈ f.unseparatedBlocks regions, ∀ s ∈ g, ∀ t ∈ h,
        f.PutBefore regions s t → f.graph.StartsBefore {s | s ∈ g} {t | t ∈ h} := by
  have stand := pairwise_putBefore wf regions
  constructor
  · intro ordered g first h second s inG t inH before
    obtain ⟨i, inside, rfl⟩ := List.getElem_of_mem first
    obtain ⟨j, within, rfl⟩ := List.getElem_of_mem second
    rcases Nat.lt_trichotomy i j with left | rfl | right
    · exact List.pairwise_iff_getElem.1 ordered i j inside within left
    · obtain ⟨k, r, at_k, _, apart, _⟩ := before
      have classes := isClasses_unseparatedBlocks wf regions
      have together := (classes.mem_iff _ first s inG t).1 inH
      exact absurd (together.2.2 r (List.mem_of_getElem? at_k)) apart
    · have other := List.pairwise_iff_getElem.1 stand j i within inside right
      exact absurd before (other t inH s inG).asymm
  · intro kept
    refine stand.imp_of_mem fun {g h} first second before => ?_
    have classes := isClasses_unseparatedBlocks wf regions
    obtain ⟨s, inG⟩ := classes.exists_mem_group first
    obtain ⟨t, inH⟩ := classes.exists_mem_group second
    exact kept g first h second s inG t inH (before s inG t inH)

/-- The groups of reachable states stand as the first region that told them apart has put them, and
the unreachable states come last. -/
theorem unseparated_order (wf : f.graph.WellFormed) (regions : List (Region f.size)) :
    ∃ blocks, IsClasses blocks (f.Indistinct regions) ∧
      f.unseparated regions = blocks ++ [f.tree.unreachable].filter (!·.isEmpty) ∧
      (∀ s, s ∈ f.tree.unreachable ↔ s ∈ f.graph.states ∧ f.isReachable s = false) ∧
      (blocks.Pairwise fun g h => ∀ s ∈ g, ∀ t ∈ h, f.PutBefore regions s t) ∧
      ((blocks.Pairwise fun g h => f.graph.StartsBefore {s | s ∈ g} {t | t ∈ h}) ↔
        ∀ g ∈ blocks, ∀ h ∈ blocks, ∀ s ∈ g, ∀ t ∈ h,
          f.PutBefore regions s t → f.graph.StartsBefore {s | s ∈ g} {t | t ∈ h}) :=
  ⟨f.unseparatedBlocks regions, isClasses_unseparatedBlocks wf regions, rfl,
    fun _ => mem_unreachable,
    pairwise_putBefore wf regions, pairwise_startsBefore_iff wf regions⟩

/-! ### A line that loses its first state -/

/-- Four events in turn, the second of which occurs again. -/
def rejoiningLine : TransitionSystem :=
  let first : Arc := ⟨"s0", "a", "s1", none⟩
  let second : Arc := ⟨"s1", "b", "s2", none⟩
  let third : Arc := ⟨"s2", "c", "s3", none⟩
  let fourth : Arc := ⟨"s3", "b", "s4", none⟩
  { initial := some "s0"
    incidences := [⟨"s0", [first], []⟩, ⟨"s1", [second], [first]⟩, ⟨"s2", [third], [second]⟩,
      ⟨"s3", [fourth], [third]⟩, ⟨"s4", [], [fourth]⟩]
    arcs := [first, second, third, fourth]
    alphabet := ["a", "b", "c"] }

def rejoiningFrame : Frame :=
  ⟨⟨rejoiningLine, some "s0", .forward, by decide, _, rfl⟩, rfl, _, rfl⟩

def middleToken : Region rejoiningFrame.size := ⟨[⟨0, 1⟩, ⟨0, 0⟩, ⟨1, 0⟩], 0, rfl⟩

def startToken : Region rejoiningFrame.size := ⟨[⟨0, 1⟩, ⟨0, 0⟩, ⟨0, 0⟩], 0, rfl⟩

theorem rejoiningFrame_wellFormed : rejoiningFrame.graph.WellFormed := by constructor <;> decide

theorem unseparated_order_rejoining : rejoiningFrame.graph.WellFormed ∧
    rejoiningFrame.unseparated [middleToken, startToken] = [["s3", "s4"], ["s1", "s2"]] ∧
    rejoiningFrame.PutBefore [middleToken, startToken] "s3" "s1" := by
  have value : rejoiningFrame.unseparated [middleToken, startToken] =
      [["s3", "s4"], ["s1", "s2"]] := by decide
  obtain ⟨blocks, _, all, _, ordered, _⟩ :=
    unseparated_order rejoiningFrame_wellFormed [middleToken, startToken]
  have none : rejoiningFrame.tree.unreachable = [] := by decide
  rw [value, none] at all
  obtain rfl : [["s3", "s4"], ["s1", "s2"]] = blocks := by simpa using all
  refine ⟨rejoiningFrame_wellFormed, value, ?_⟩
  exact (List.pairwise_cons.1 ordered).1 ["s1", "s2"] (by simp) "s3" (by simp) "s1" (by simp)

/-- The state for which `s3` and `s4` were put in front is in no block any more. -/
theorem not_startsBefore_rejoining : rejoiningFrame.graph.WellFormed ∧
    ∃ g h, rejoiningFrame.unseparated [middleToken, startToken] = [g, h] ∧
      ¬ rejoiningFrame.graph.StartsBefore {s | s ∈ g} {t | t ∈ h} := by
  refine ⟨rejoiningFrame_wellFormed, ["s3", "s4"], ["s1", "s2"], by decide, ?_⟩
  rintro ⟨s, member, first⟩
  have low := first "s1" (by simp)
  rcases List.mem_cons.1 member with rfl | last
  · exact absurd low (by decide)
  · obtain rfl := List.mem_singleton.1 last
    exact absurd low (by decide)

end Frame

end NetSynthesis
