import NetSynthesis.Proofs.ExceptSteps
import NetSynthesis.Proofs.WellFormedSystem
import NetSynthesis.TrackedSystem

/-! Trees that are used again are those of the system as it is. An edit either fails and changes
nothing or makes the version larger, so that a kept tree with the version of the system is a tree of
this very system. -/
namespace NetSynthesis

namespace TransitionSystem

variable {ts grown : TransitionSystem}

/-! ### Versions -/

theorem addState_version {name? : Option State} {s : State}
    (added : ts.addState name? = .ok (grown, s)) : grown.version = ts.version + 1 := by
  unfold addState at added
  simp only at added
  split at added
  · simp at added
  · rw [← (Prod.mk.inj (Except.ok.inj added)).1]

theorem addStates_cases (ts : TransitionSystem) (names : List (Option State)) :
    (ts.addStates names).1 = ts ∨ ts.states.length < (ts.addStates names).1.states.length ∧
      ts.version < (ts.addStates names).1.version := by
  induction names generalizing ts with
  | nil => exact .inl rfl
  | cons name? rest ih =>
    rw [addStates]
    cases added : ts.addState name? with
    | error e => exact .inl rfl
    | ok result =>
      obtain ⟨grown, s⟩ := result
      have version := addState_version added
      have states : grown.states.length = ts.states.length + 1 := by
        simp [(addState_spec added).2.1]
      right
      rcases ih grown with same | ⟨more, later⟩
      · simp only [same]
        omega
      · simp only
        omega

theorem commit_cases {r : Except Error TransitionSystem}
    (later : ∀ grown, r = .ok grown → ts.version < grown.version) :
    (ts.commit r).2.isOk = false ∧ (ts.commit r).1 = ts ∨
      (ts.commit r).2.isOk = true ∧ ts.version < (ts.commit r).1.version := by
  cases r with
  | error e => exact .inl ⟨rfl, rfl⟩
  | ok grown => exact .inr ⟨rfl, later grown rfl⟩

/-- An edit fails and changes nothing, or it succeeds and the version grows. -/
theorem edit_cases (ts : TransitionSystem) (e : Edit) :
    ts.accepts e = false ∧ (ts.edit e).1 = ts ∨
      ts.accepts e = true ∧ ts.version < (ts.edit e).1.version := by
  cases e with
  | addState name? =>
    refine commit_cases fun grown result => ?_
    cases added : ts.addState name? with
    | error e => simp [added, Except.map] at result
    | ok pair =>
      obtain rfl : pair.1 = grown := by simpa [added, Except.map] using result
      rw [addState_version added]
      exact Nat.lt_succ_self _
  | addStates names =>
    rcases addStates_cases ts names with same | ⟨more, later⟩
    · exact .inl ⟨by simp [accepts, same], same⟩
    · exact .inr ⟨by simpa [accepts] using more, later⟩
  | addArc a =>
    refine commit_cases fun grown added => ?_
    obtain ⟨_, _, _, rfl⟩ := addArc_eq_ok.1 added
    exact Nat.lt_succ_self _
  | addEvent e => exact .inr ⟨rfl, Nat.lt_succ_self _⟩
  | setInitial s =>
    refine commit_cases fun grown chosen => ?_
    obtain ⟨_, rfl⟩ := setInitial_eq_ok.1 chosen
    exact Nat.lt_succ_self _

end TransitionSystem

theorem SpanningTree.of_eq_ok {ts : TransitionSystem} {start? : Option State} {d : Direction}
    {t : SpanningTree} :
    of ts start? d = .ok t ↔ t.graph = ts ∧ t.start = start?.or ts.initial ∧ t.direction = d := by
  rw [of]
  constructor
  · intro built
    split at built
    · obtain rfl := Except.ok.inj built
      exact ⟨rfl, rfl, rfl⟩
    · simp at built
  · obtain ⟨graph, start, direction, start_mem, sweep, rfl⟩ := t
    simp only
    rintro ⟨rfl, rfl, rfl⟩
    rw [dif_pos start_mem]

theorem SpanningTree.of_or_initial (ts : TransitionSystem) (start? : Option State)
    (d : Direction) : of ts (start?.or ts.initial) d = of ts start? d := by
  simp only [of, Option.or_assoc, Option.or_self]

namespace TreeCache

variable {c : TreeCache} {ts : TransitionSystem} {k : NumberedTree}

/-- Keeps a new tree in place of the one with its start and direction. -/
def put (c : TreeCache) (k : NumberedTree) : TreeCache where
  kept := c.kept.filter (fun l => !(l.tree.start == k.tree.start &&
    l.tree.direction == k.tree.direction)) ++ [k]
  built := c.built + 1

variable {c' : TreeCache} {grown : TransitionSystem} {l : NumberedTree}
  {start : Option State} {start? : Option State} {d : Direction}

/-- A tree that is used again was kept and has the version of the system. Only if there is no such
tree one is built, which gets the next number. -/
theorem get_cases (got : c.get ts start? d = .ok (c', k)) :
    c' = c ∧ c.find? (start?.or ts.initial) d = some k ∧ k.tree.graph.version = ts.version ∨
      c' = c.put k ∧ SpanningTree.of ts start? d = .ok k.tree ∧ k.number = c.built ∧
        ∀ l, c.find? (start?.or ts.initial) d = some l → l.tree.graph.version ≠ ts.version := by
  rw [get] at got
  simp only at got
  split at got
  · next current =>
    obtain ⟨rfl, rfl⟩ := Prod.mk.inj (Except.ok.inj got)
    obtain ⟨found, version⟩ := Option.filter_eq_some_iff.1 current
    exact .inl ⟨rfl, found, by simpa using version⟩
  · next outdated =>
    obtain ⟨t, built, kept⟩ := bind_eq_ok.1 got
    obtain ⟨rfl, rfl⟩ := Prod.mk.inj (pure_eq_ok.1 kept)
    obtain ⟨_, start, direction⟩ := SpanningTree.of_eq_ok.1 built
    rw [SpanningTree.of_or_initial] at built
    rw [Option.or_assoc, Option.or_self] at start
    refine .inr ⟨by rw [put, start, direction], built, rfl, fun l found => ?_⟩
    simpa [Option.filter_eq_none_iff, found] using outdated

theorem get_eq_error {e : Error} (failed : c.get ts start? d = .error e) :
    SpanningTree.of ts start? d = .error e := by
  rw [get] at failed
  simp only at failed
  split at failed
  · simp at failed
  · rcases bind_eq_error.1 failed with failed | ⟨_, _, impossible⟩
    · rwa [SpanningTree.of_or_initial] at failed
    · simp [pure, Except.pure] at impossible

theorem mem_put : l ∈ (c.put k).kept → l ∈ c.kept ∨ l = k := by
  rw [put, List.mem_append, List.mem_filter, List.mem_singleton]
  exact Or.imp_left And.left

theorem mem_of_find? (found : c.find? start d = some k) :
    k ∈ c.kept ∧ k.tree.start = start ∧ k.tree.direction = d :=
  ⟨List.mem_of_find?_eq_some found, by simpa using List.find?_some found⟩

theorem find?_put : (c.put k).find? start d =
    if k.tree.start = start ∧ k.tree.direction = d then some k else c.find? start d := by
  rw [find?, put, List.find?_append, List.find?_filter]
  split
  · next same =>
    obtain ⟨rfl, rfl⟩ := same
    rw [List.find?_eq_none.2 fun l _ => by grind]
    simp
  · next differ =>
    have only : (fun l : NumberedTree => !(l.tree.start == k.tree.start &&
        l.tree.direction == k.tree.direction) && (l.tree.start == start && l.tree.direction == d)) =
        fun l => l.tree.start == start && l.tree.direction == d := by
      funext l
      grind
    have other : (k.tree.start == start && k.tree.direction == d) = false := by simpa using differ
    simp only [Bool.decide_and, Bool.decide_eq_true]
    rw [only, List.find?_cons, other, List.find?_nil, Option.or_none, find?]

/-! ### What is kept -/

/-- What is known about the kept trees: none is of a later version than the system, those of its
version are trees of the system itself, and they have different numbers, given out before. -/
structure Current (c : TreeCache) (ts : TransitionSystem) : Prop where
  version_le : ∀ k ∈ c.kept, k.tree.graph.version ≤ ts.version
  graph_eq : ∀ k ∈ c.kept, k.tree.graph.version = ts.version → k.tree.graph = ts
  number_lt : ∀ k ∈ c.kept, k.number < c.built
  number_inj : ∀ k ∈ c.kept, ∀ l ∈ c.kept, k.number = l.number → k = l

theorem current_empty (ts : TransitionSystem) : ({} : TreeCache).Current ts := by
  constructor <;> simp

/-- The trees of an edited system are of earlier versions. -/
theorem Current.edited (current : c.Current ts) (later : ts.version < grown.version) :
    c.Current grown where
  version_le := fun k kept => (current.version_le k kept).trans later.le
  graph_eq := fun k kept same => by have := current.version_le k kept; omega
  number_lt := current.number_lt
  number_inj := current.number_inj

theorem Current.of_eq (current : c.Current ts) (got : c.get ts start? d = .ok (c', k)) :
    SpanningTree.of ts start? d = .ok k.tree := by
  rcases get_cases got with ⟨_, found, version⟩ | ⟨_, built, _⟩
  · obtain ⟨kept, start, direction⟩ := mem_of_find? found
    exact SpanningTree.of_eq_ok.2 ⟨current.graph_eq k kept version, start, direction⟩
  · exact built

theorem Current.get (current : c.Current ts) (got : c.get ts start? d = .ok (c', k)) :
    c'.Current ts := by
  rcases get_cases got with ⟨rfl, _⟩ | ⟨rfl, built, number, _⟩
  · exact current
  obtain ⟨graph, _⟩ := SpanningTree.of_eq_ok.1 built
  have below (m : NumberedTree) (old : m ∈ c.kept) : m.number < k.number :=
    number ▸ current.number_lt m old
  constructor
  · intro m kept
    rcases mem_put kept with old | rfl
    · exact current.version_le m old
    · rw [graph]
  · intro m kept version
    rcases mem_put kept with old | rfl
    · exact current.graph_eq m old version
    · exact graph
  · intro m kept
    rcases mem_put kept with old | rfl
    · exact (current.number_lt m old).trans (Nat.lt_succ_self _)
    · exact number ▸ Nat.lt_succ_self _
  · intro m first n second same
    rcases mem_put first with old | rfl <;> rcases mem_put second with old' | rfl
    · exact current.number_inj m old n old' same
    · exact absurd same (below m old).ne
    · exact absurd same (below n old').ne'
    · rfl

def Keeps (c : TreeCache) (ts : TransitionSystem) (k : NumberedTree) : Prop :=
  c.find? k.tree.start k.tree.direction = some k ∧ k.tree.graph = ts

theorem Current.keeps (current : c.Current ts) (got : c.get ts start? d = .ok (c', k)) :
    c'.Keeps ts k := by
  have built := SpanningTree.of_eq_ok.1 (current.of_eq got)
  refine ⟨?_, built.1⟩
  rcases get_cases got with ⟨rfl, found, _⟩ | ⟨rfl, _⟩
  · rw [built.2.1, built.2.2, found]
  · rw [find?_put, if_pos ⟨rfl, rfl⟩]

theorem Keeps.eq (keeps : c.Keeps ts k) (got : c.get ts start? d = .ok (c', l))
    (start : start?.or ts.initial = k.tree.start) (direction : d = k.tree.direction) : l = k := by
  obtain ⟨found, graph⟩ := keeps
  rcases get_cases got with ⟨_, again, _⟩ | ⟨_, _, _, outdated⟩
  · rw [start, direction, found] at again
    exact (Option.some.inj again).symm
  · rw [start, direction] at outdated
    exact absurd (congrArg _ graph) (outdated k found)

/-- It stays when other trees are asked for. -/
theorem Keeps.get (keeps : c.Keeps ts k) (got : c.get ts start? d = .ok (c', l)) :
    c'.Keeps ts k := by
  obtain ⟨found, graph⟩ := keeps
  rcases get_cases got with ⟨rfl, _⟩ | ⟨rfl, built, _⟩
  · exact ⟨found, graph⟩
  obtain ⟨_, start, direction⟩ := SpanningTree.of_eq_ok.1 built
  refine ⟨?_, graph⟩
  rw [find?_put]
  split
  · next same =>
    have : l = k := Keeps.eq ⟨found, graph⟩ got (start ▸ same.1) (direction ▸ same.2)
    rw [this]
  · exact found

def Numbers (c : TreeCache) (k : NumberedTree) : Prop :=
  k.number < c.built ∧ ∀ l ∈ c.kept, l.number = k.number → l = k

theorem Current.numbers (current : c.Current ts) (got : c.get ts start? d = .ok (c', k)) :
    c'.Numbers k := by
  have kept := (mem_of_find? (current.keeps got).1).1
  exact ⟨(current.get got).number_lt k kept,
    fun l other same => (current.get got).number_inj l other k kept same⟩

/-- A number is not given to another tree later. -/
theorem Numbers.eq (numbers : c.Numbers k) (got : c.get ts start? d = .ok (c', l))
    (same : l.number = k.number) : l = k := by
  rcases get_cases got with ⟨_, found, _⟩ | ⟨_, _, number, _⟩
  · exact numbers.2 l (mem_of_find? found).1 same
  · have := numbers.1
    omega

theorem Numbers.get (numbers : c.Numbers k) (got : c.get ts start? d = .ok (c', l)) :
    c'.Numbers k := by
  rcases get_cases got with ⟨rfl, _⟩ | ⟨rfl, _, number, _⟩
  · exact numbers
  refine ⟨numbers.1.trans (Nat.lt_succ_self _), fun m kept same => ?_⟩
  rcases mem_put kept with old | rfl
  · exact numbers.2 m old same
  · exact numbers.eq got same

end TreeCache

/-! ### Runs -/

namespace TrackedSystem

variable {σ : TrackedSystem} {start? : Option State} {d : Direction} {k : NumberedTree}

/-- An edit leaves the trees alone, and asking for a tree leaves the system alone and fails without
a trace. -/
theorem step_cases (σ : TrackedSystem) (x : TrackedStep) :
    (∃ e, x = .edit e ∧ σ.step x = ⟨(σ.system.edit e).1, σ.cache⟩) ∨
      ∃ start? d, x = .tree start? d ∧ (σ.step x = σ ∨
        ∃ c k, σ.cache.get σ.system start? d = .ok (c, k) ∧ σ.step x = ⟨σ.system, c⟩) := by
  cases x with
  | edit e => exact .inl ⟨e, rfl, rfl⟩
  | tree start? d =>
    refine .inr ⟨start?, d, rfl, ?_⟩
    rw [step]
    split
    · next c k got => exact .inr ⟨c, k, got, rfl⟩
    · exact .inl rfl

theorem current_step (current : σ.cache.Current σ.system) (x : TrackedStep) :
    (σ.step x).cache.Current (σ.step x).system := by
  rcases σ.step_cases x with ⟨e, _, stepped⟩ | ⟨_, _, _, stepped | ⟨_, _, got, stepped⟩⟩ <;>
    rw [stepped]
  · rcases σ.system.edit_cases e with ⟨_, same⟩ | ⟨_, later⟩
    · rwa [same]
    · exact current.edited later
  · exact current
  · exact current.get got

theorem current_run (current : σ.cache.Current σ.system) (xs : List TrackedStep) :
    (σ.run xs).cache.Current (σ.run xs).system := by
  induction xs generalizing σ with
  | nil => exact current
  | cons x xs ih => exact ih (current_step current x)

theorem edits_cons (σ : TrackedSystem) (x : TrackedStep) (xs : List TrackedStep) :
    σ.edits (x :: xs) = σ.edits [x] + (σ.step x).edits xs := by
  cases x <;> simp [edits]

theorem edits_step (σ : TrackedSystem) (x : TrackedStep) :
    σ.edits [x] = 0 ∧ (σ.step x).system = σ.system ∨
      0 < σ.edits [x] ∧ σ.system.version < (σ.step x).system.version := by
  rcases σ.step_cases x with ⟨e, rfl, stepped⟩ | ⟨_, _, rfl, same | ⟨_, _, _, stepped⟩⟩
  · rw [stepped]
    rcases σ.system.edit_cases e with ⟨failed, same⟩ | ⟨accepted, later⟩
    · exact .inl ⟨by simp [edits, failed], same⟩
    · exact .inr ⟨by simp [edits, accepted], later⟩
  · exact .inl ⟨rfl, by rw [same]⟩
  · exact .inl ⟨rfl, by rw [stepped]⟩

theorem edits_cases (σ : TrackedSystem) (xs : List TrackedStep) :
    σ.edits xs = 0 ∧ (σ.run xs).system = σ.system ∨
      0 < σ.edits xs ∧ σ.system.version < (σ.run xs).system.version := by
  induction xs generalizing σ with
  | nil => exact .inl ⟨rfl, rfl⟩
  | cons x xs ih =>
    rw [edits_cons, show σ.run (x :: xs) = (σ.step x).run xs from rfl]
    rcases ih (σ.step x) with ⟨none, same⟩ | ⟨some, later⟩ <;>
      rcases σ.edits_step x with ⟨none', same'⟩ | ⟨some', later'⟩
    · exact .inl ⟨by omega, same.trans same'⟩
    · exact .inr ⟨by omega, same ▸ later'⟩
    · exact .inr ⟨by omega, same' ▸ later⟩
    · exact .inr ⟨by omega, later'.trans later⟩

theorem keeps_step {x : TrackedStep} (keeps : σ.cache.Keeps σ.system k)
    (unedited : σ.edits [x] = 0) : (σ.step x).cache.Keeps (σ.step x).system k := by
  rcases σ.edits_step x with ⟨_, same⟩ | ⟨edited, _⟩
  · rw [same]
    rcases σ.step_cases x with ⟨_, _, stepped⟩ | ⟨_, _, _, stepped | ⟨_, _, got, stepped⟩⟩ <;>
      rw [stepped]
    · exact keeps
    · exact keeps
    · exact keeps.get got
  · omega

theorem keeps_run {xs : List TrackedStep} (keeps : σ.cache.Keeps σ.system k)
    (unedited : σ.edits xs = 0) : (σ.run xs).cache.Keeps (σ.run xs).system k := by
  induction xs generalizing σ with
  | nil => exact keeps
  | cons x xs ih =>
    rw [edits_cons, Nat.add_eq_zero_iff] at unedited
    exact ih (keeps_step keeps unedited.1) unedited.2

theorem numbers_step (numbers : σ.cache.Numbers k) (x : TrackedStep) :
    (σ.step x).cache.Numbers k := by
  rcases σ.step_cases x with ⟨_, _, stepped⟩ | ⟨_, _, _, stepped | ⟨_, _, got, stepped⟩⟩ <;>
    rw [stepped]
  · exact numbers
  · exact numbers
  · exact numbers.get got

theorem numbers_run (numbers : σ.cache.Numbers k) (xs : List TrackedStep) :
    (σ.run xs).cache.Numbers k := by
  induction xs generalizing σ with
  | nil => exact numbers
  | cons x xs ih => exact ih (numbers_step numbers x)

theorem ask_eq_ok : σ.ask start? d = .ok k ↔
    ∃ c, σ.cache.get σ.system start? d = .ok (c, k) := by
  rw [ask]
  cases σ.cache.get σ.system start? d with
  | error e => simp [Except.map]
  | ok result => obtain ⟨c, l⟩ := result; simp [Except.map]

/-- The tree that is asked for is the one that would be built, and a failure is a failure to build
it. -/
theorem ask_current (current : σ.cache.Current σ.system) (start? : Option State) (d : Direction) :
    (σ.ask start? d).map (·.tree) = SpanningTree.of σ.system start? d := by
  rw [ask]
  cases asked : σ.cache.get σ.system start? d with
  | error e => rw [TreeCache.get_eq_error asked]; rfl
  | ok result => rw [current.of_eq asked]; rfl

/-- Some steps after a tree has been given out, its number is given out again for its start and
direction just if none of the steps was an edit that succeeded. -/
theorem number_eq_iff {c c' : TreeCache} {l : NumberedTree} {next? : Option State}
    {xs : List TrackedStep} (current : σ.cache.Current σ.system)
    (first : σ.cache.get σ.system start? d = .ok (c, k))
    (second : (run ⟨σ.system, c⟩ xs).cache.get (run ⟨σ.system, c⟩ xs).system next? d = .ok (c', l))
    (same : next?.or (run ⟨σ.system, c⟩ xs).system.initial = k.tree.start) :
    k.number = l.number ↔ edits ⟨σ.system, c⟩ xs = 0 := by
  obtain ⟨graph, _, direction⟩ := SpanningTree.of_eq_ok.1 (current.of_eq first)
  constructor
  · intro number
    have numbers := numbers_run (σ := ⟨σ.system, c⟩) (current.numbers first) xs
    obtain rfl := numbers.eq second number.symm
    -- The one tree is a tree of the system as it was and of the system as it is.
    have current' := current_run (σ := ⟨σ.system, c⟩) (current.get first) xs
    have now := (SpanningTree.of_eq_ok.1 (current'.of_eq second)).1
    rcases edits_cases ⟨σ.system, c⟩ xs with ⟨none, _⟩ | ⟨_, later⟩
    · exact none
    · rw [← now, graph] at later
      exact absurd later (Nat.lt_irrefl _)
  · intro unedited
    have keeps := keeps_run (σ := ⟨σ.system, c⟩) (current.keeps first) unedited
    rw [keeps.eq second same direction.symm]

/-- Whatever has been done with a system, the tree that is asked for is the one that would be built
now. Two answers for one start and direction are the same object just if no edit in between
succeeded. -/
theorem trees_current (ts : TransitionSystem) (xs ys : List TrackedStep)
    (start? next? : Option State) (d : Direction) :
    let σ := run ⟨ts, {}⟩ xs
    let τ := run (σ.step (.tree start? d)) ys
    (σ.ask start? d).map (·.tree) = SpanningTree.of σ.system start? d ∧
      ∀ k l, σ.ask start? d = .ok k → τ.ask next? d = .ok l →
        start?.or σ.system.initial = next?.or τ.system.initial →
          (k.number = l.number ↔ (σ.step (.tree start? d)).edits ys = 0) := by
  intro σ τ
  have current : σ.cache.Current σ.system := current_run (TreeCache.current_empty ts) xs
  refine ⟨ask_current current start? d, fun k l first second same => ?_⟩
  obtain ⟨c, first⟩ := ask_eq_ok.1 first
  obtain ⟨_, second⟩ := ask_eq_ok.1 second
  have asked : σ.step (.tree start? d) = ⟨σ.system, c⟩ := by rw [step, first]
  have after : τ = run ⟨σ.system, c⟩ ys := by rw [← asked]
  have start := (SpanningTree.of_eq_ok.1 (current.of_eq first)).2.1
  rw [asked]
  rw [after] at second same
  exact number_eq_iff current first second (same.symm.trans start.symm)

/-- No state is added where the first name is taken, but one is where only the second is. -/
theorem trees_current_partial :
    let σ := run ⟨{}, {}⟩ [.edit (.addStates [some "a", some "b"])]
    let τ := σ.step (.tree none .forward)
    ∃ k l m, σ.ask none .forward = .ok k ∧
      (τ.run [.edit (.addStates [some "a", some "c"])]).ask (some "a") .forward = .ok l ∧
      (τ.run [.edit (.addStates [some "c", some "a"])]).ask (some "a") .forward = .ok m ∧
      k.number = l.number ∧ k.number ≠ m.number := by
  have current (ys : List TrackedStep) := (trees_current {}
    [.edit (.addStates [some "a", some "b"])] ys none (some "a") .forward).2
  refine ⟨_, _, _, rfl, rfl, rfl, ?_, fun same => ?_⟩
  · exact (current [.edit (.addStates [some "a", some "c"])] _ _ rfl rfl rfl).2 (by decide)
  · have edited := (current [.edit (.addStates [some "c", some "a"])] _ _ rfl rfl rfl).1 same
    exact absurd edited (by decide)

end TrackedSystem

end NetSynthesis
