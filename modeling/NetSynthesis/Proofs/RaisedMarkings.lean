import Mathlib.Algebra.Order.BigOperators.Group.List
import Mathlib.Algebra.Order.Group.Int
import Mathlib.Data.Set.Finite.Basic
import NetSynthesis.MarkingGraph
import NetSynthesis.Proofs.LabelledNet

/-! More tokens never disable a transition. What can be fired in a marking can be fired with tokens
added to its places, and they are still there afterwards. A way that leads to a marking above the
one where it begins can therefore be gone again from there, each time with more tokens, and a net
with such a way has infinitely many reachable markings. -/
namespace NetSynthesis.Net

open LabelledGraph

variable {net : Net} {m k d : Marking} {w : List Event}

def raise (d m : Marking) : Marking := m.zipWith (· + ·) d

theorem raise_map {α : Type} (xs : List α) (extra tokens : α → Int) :
    raise (xs.map extra) (xs.map tokens) = xs.map fun x => tokens x + extra x := by
  rw [raise, List.zipWith_map, List.zipWith_self]

theorem sum_raise (same : m.length = d.length) : (raise d m).sum = m.sum + d.sum := by
  induction m generalizing d with
  | nil =>
    obtain rfl := List.length_eq_zero_iff.1 same.symm
    rfl
  | cons x m ih =>
    cases d with
    | nil => simp at same
    | cons y d =>
      have rest := ih (d := d) (by simpa using same)
      simp only [raise, List.zipWith_cons_cons, List.sum_cons] at rest ⊢
      omega

/-- Two markings of a net as numbers at its places. -/
theorem IsMarking.exists_entries (marking : net.IsMarking m) (other : net.IsMarking d) :
    ∃ entries : List (Place × Int × Int), net.places = entries.map (·.1) ∧
      m = entries.map (·.2.1) ∧ d = entries.map (·.2.2) := by
  have length : (m.zip d).length = net.places.length := by
    simp [marking.length, other.length]
  have pairs : (net.places.zip (m.zip d)).map (·.2) = m.zip d := List.map_snd_zip length.le
  refine ⟨net.places.zip (m.zip d), (List.map_fst_zip length.ge).symm, ?_, ?_⟩
  · have first : (m.zip d).map (·.1) = m :=
      List.map_fst_zip (by simp [marking.length, other.length])
    rw [← pairs, List.map_map] at first
    exact first.symm
  · have second : (m.zip d).map (·.2) = d :=
      List.map_snd_zip (by simp [marking.length, other.length])
    rw [← pairs, List.map_map] at second
    exact second.symm

theorem fire_raise {id : String} (marking : net.IsMarking m) (extra : net.IsMarking d)
    (fired : net.fire m id = .ok k) : net.fire (raise d m) id = .ok (raise d k) := by
  obtain ⟨entries, places, rfl, rfl⟩ := marking.exists_entries extra
  obtain ⟨enough, rfl⟩ := (fire_map_iff places).1 fired
  rw [raise_map, raise_map, fire_map_iff places]
  refine ⟨fun x member => ?_, List.map_congr_left fun x _ => by omega⟩
  have taken := enough x member
  have added := extra.nonneg x.2.2 (List.mem_map_of_mem member)
  omega

theorem path_raise (marking : net.IsMarking m) (extra : net.IsMarking d)
    (path : net.behaviour.Path m w k) : net.behaviour.Path (raise d m) w (raise d k) := by
  have general {w : List Event} {k : net.behaviour.Node} (path : net.behaviour.Path m w k) :
      net.behaviour.Path (raise d m) w (raise d k : Marking) := by
    induction path with
    | nil => exact .nil
    | snoc path edge ih =>
      obtain ⟨t, member, label, fired⟩ := edge
      exact .snoc ih ⟨t, member, label, fire_raise (marking.path path) extra fired⟩
  exact general path

/-! ### Ways up -/

/-- A marking that covers another one has more tokens on some places and less on none. -/
theorem IsMarking.exists_raise {old : Marking} (marking : net.IsMarking m)
    (other : net.IsMarking old) (covers : MarkingGraph.covers m old = true) :
    ∃ d, net.IsMarking d ∧ 0 < d.sum ∧ m = Net.raise d old := by
  obtain ⟨entries, places, rfl, rfl⟩ := marking.exists_entries other
  simp only [MarkingGraph.covers, List.zip_map', List.all_map, Bool.and_eq_true, bne_iff_ne,
    List.all_eq_true, Function.comp_apply, decide_eq_true_eq] at covers
  obtain ⟨differ, above⟩ := covers
  have sum : entries.map (·.2.1) =
      Net.raise (entries.map fun x => x.2.1 - x.2.2) (entries.map (·.2.2)) := by
    rw [raise_map]
    exact List.map_congr_left fun x _ => by omega
  have nonneg : ∀ x ∈ entries.map fun x => x.2.1 - x.2.2, 0 ≤ x :=
    List.forall_mem_map.2 fun x member => Int.sub_nonneg.2 (above x member)
  refine ⟨entries.map fun x => x.2.1 - x.2.2, ⟨by simp [places], nonneg⟩, ?_, sum⟩
  refine lt_of_le_of_ne (List.sum_nonneg nonneg) fun zero => differ ?_
  refine List.map_congr_left fun x member => ?_
  have none := List.all_zero_of_le_zero_le_of_sum_eq_zero nonneg zero.symm
    (List.mem_map_of_mem member)
  omega

/-- The markings on a way up that is gone again and again. -/
def raised (d old : Marking) : Nat → Marking
  | 0 => old
  | n + 1 => raise d (raised d old n)

theorem infinite_of_covers {old : Marking} (reached : net.behaviour.Reaches old)
    (path : net.behaviour.Path old w m) (covers : MarkingGraph.covers m old = true) :
    { k : Marking | net.behaviour.Reaches k }.Infinite := by
  obtain ⟨v, way⟩ := reached
  have marking : net.IsMarking old := (IsMarking.initial net).path way
  obtain ⟨d, extra, positive, rfl⟩ := (marking.path path).exists_raise marking covers
  have round (n : Nat) : net.IsMarking (raised d old n) ∧
      net.behaviour.Reaches (raised d old n) ∧
      net.behaviour.Path (raised d old n) w (raised d old (n + 1)) := by
    induction n with
    | zero => exact ⟨marking, ⟨v, way⟩, path⟩
    | succ n ih =>
      obtain ⟨before, ⟨u, found⟩, again⟩ := ih
      exact ⟨before.path again, ⟨_, found.append again⟩, path_raise before extra again⟩
  have tokens (n : Nat) : (raised d old n).sum = old.sum + n * d.sum := by
    induction n with
    | zero => simp [raised]
    | succ n ih =>
      rw [raised, sum_raise ((round n).1.length.trans extra.length.symm), ih]
      push_cast
      rw [Int.add_mul, Int.one_mul, Int.add_assoc]
  refine Set.infinite_of_injective_forall_mem (f := raised d old) (fun i j same => ?_)
    fun n => (round n).2.1
  have sums : (i : Int) * d.sum = j * d.sum := by
    have := tokens i
    have := tokens j
    rw [same] at *
    omega
  exact Int.ofNat_inj.1 (Int.eq_of_mul_eq_mul_right positive.ne' sums)

end NetSynthesis.Net
