import NetSynthesis.Minimization
import NetSynthesis.Proofs.ListedClasses
import NetSynthesis.Proofs.ValidRegions

/-! States that no region tells apart. One region after the other splits the blocks of reachable
states by its tokens, so that in the end the blocks are the classes of the states in which all
regions have the same tokens. -/
namespace NetSynthesis.Frame

variable {f : Frame} {regions : List (Region f.size)} {s t : State}

/-- Two reachable states in which no region has different numbers of tokens. -/
def Indistinct (f : Frame) (regions : List (Region f.size)) (s t : State) : Prop :=
  f.isReachable s = true ∧ f.isReachable t = true ∧ ∀ r ∈ regions, f.tokens r s = f.tokens r t

theorem split_eq (r : Region f.size) : f.split r = keyedGroups (f.tokens r) := by
  funext block
  simp only [split, keyedGroups, beq_eq_decide]

/-- Blocks that have been split by all regions stand for what they stood for before, and for the
tokens of all regions. -/
theorem isClasses_foldl_split {blocks : List (List State)} {related : State → State → Prop}
    (classes : IsClasses blocks related) (regions : List (Region f.size)) :
    IsClasses (regions.foldl (fun blocks r => blocks.flatMap (f.split r)) blocks) fun s t =>
      related s t ∧ ∀ r ∈ regions, f.tokens r s = f.tokens r t := by
  induction regions generalizing blocks related with
  | nil => simpa using classes
  | cons r regions ih =>
    have first := classes.split (f.tokens r)
    rw [← split_eq r] at first
    simpa only [List.foldl_cons, List.forall_mem_cons, and_assoc] using ih first

theorem isClasses_unseparatedBlocks (wf : f.graph.WellFormed) (regions : List (Region f.size)) :
    IsClasses (f.unseparatedBlocks regions) (f.Indistinct regions) := by
  have refined := isClasses_foldl_split (isClasses_whole (nodup_reachable wf)) regions
  simp only [mem_reachable, and_assoc] at refined
  exact refined

theorem separated_or_mem_block (wf : f.graph.WellFormed) (hs : f.isReachable s = true)
    (ht : f.isReachable t = true) (differ : s ≠ t) :
    (∃ r ∈ regions, f.separates r s t = true) ∨
      ∃ block ∈ f.unseparatedBlocks regions, s ∈ block ∧ t ∈ block := by
  by_cases same : ∀ r ∈ regions, f.tokens r s = f.tokens r t
  · have classes := isClasses_unseparatedBlocks wf regions
    obtain ⟨block, listed, inside⟩ := classes.exists_mem s t differ ⟨hs, ht, same⟩
    exact .inr ⟨block, listed, inside,
      (classes.mem_iff block listed s inside t).2 ⟨hs, ht, same⟩⟩
  · simp only [not_forall] at same
    obtain ⟨r, member, apart⟩ := same
    exact .inl ⟨r, member, separates_iff.2 ⟨hs, ht, apart⟩⟩

theorem mem_unreachable :
    s ∈ f.tree.unreachable ↔ s ∈ f.graph.states ∧ f.isReachable s = false := by
  rw [← Bool.not_eq_true, ← mem_reachable, reachable_eq, SpanningTree.unreachable,
    SpanningTree.reachable, List.mem_filter, List.mem_filter, graph]
  simp +contextual

/-- The groups of reachable states are the classes of what no region tells apart, and all
unreachable states follow as one more. -/
theorem unseparated_isClasses (wf : f.graph.WellFormed) (regions : List (Region f.size)) :
    ∃ blocks, IsClasses blocks (f.Indistinct regions) ∧
      ((∀ s ∈ f.graph.states, f.isReachable s = true) → f.unseparated regions = blocks) ∧
      ((∃ s ∈ f.graph.states, f.isReachable s = false) → ∃ last,
        f.unseparated regions = blocks ++ [last] ∧ last.Nodup ∧
          ∀ s, s ∈ last ↔ s ∈ f.graph.states ∧ f.isReachable s = false) := by
  refine ⟨_, isClasses_unseparatedBlocks wf regions, fun connected => ?_, ?_⟩
  · have empty : f.tree.unreachable = [] := List.eq_nil_iff_forall_not_mem.2 fun s member => by
      obtain ⟨known, off⟩ := mem_unreachable.1 member
      exact Bool.false_ne_true (off.symm.trans (connected s known))
    simp [unseparated, empty]
  · rintro ⟨s, known, off⟩
    have some : f.tree.unreachable ≠ [] := List.ne_nil_of_mem (mem_unreachable.2 ⟨known, off⟩)
    refine ⟨f.tree.unreachable, ?_, wf.states_nodup.filter _, fun t => mem_unreachable⟩
    simp [unseparated, some]

/-! ### A line and a state beside it -/

/-- Two events in turn and a state without arcs. -/
def strayLine : TransitionSystem :=
  let first : Arc := ⟨"s0", "a", "s1", none⟩
  let second : Arc := ⟨"s1", "b", "s2", none⟩
  { initial := some "s0"
    incidences := [⟨"s0", [first], []⟩, ⟨"s1", [second], [first]⟩, ⟨"s2", [], [second]⟩,
      ⟨"orphan", [], []⟩]
    arcs := [first, second]
    alphabet := ["a", "b"] }

def strayLineFrame : Frame := ⟨⟨strayLine, some "s0", .forward, by decide, _, rfl⟩, rfl, _, rfl⟩

def firstCounter : Region strayLineFrame.size := ⟨[⟨0, 1⟩, ⟨0, 0⟩], 0, rfl⟩

theorem unseparated_isClasses_strayLine : strayLineFrame.graph.WellFormed ∧
    (∃ s ∈ strayLineFrame.graph.states, strayLineFrame.isReachable s = false) ∧
    ∃ blocks last, strayLineFrame.unseparated [firstCounter] = blocks ++ [last] ∧
      IsClasses blocks (strayLineFrame.Indistinct [firstCounter]) ∧
      ∀ s, s ∈ last ↔ s ∈ strayLineFrame.graph.states ∧ strayLineFrame.isReachable s = false := by
  have wf : strayLineFrame.graph.WellFormed := by constructor <;> decide
  have stray : ∃ s ∈ strayLineFrame.graph.states, strayLineFrame.isReachable s = false := by decide
  obtain ⟨blocks, classes, _, more⟩ := unseparated_isClasses wf [firstCounter]
  obtain ⟨last, all, _, members⟩ := more stray
  exact ⟨wf, stray, blocks, last, all, classes, members⟩

example : strayLineFrame.unseparated [firstCounter] = [["s1", "s2"], ["orphan"]] := by decide

end NetSynthesis.Frame
