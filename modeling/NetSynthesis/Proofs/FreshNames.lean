import Mathlib.Data.List.Nodup
import Mathlib.Data.List.Perm.Subperm
import NetSynthesis.FreshName

/-! Generated names are new. If all numbers that are tried gave names that are taken, there would be
more names taken than there are. -/
namespace NetSynthesis

theorem repr_injective {m n : Nat} (same : toString m = toString n) : m = n := by
  have digits : Nat.toDigits 10 m = Nat.toDigits 10 n := by
    have texts : (toString m).toList = (toString n).toList := congrArg String.toList same
    simpa [toString, Nat.repr] using texts
  rw [← Nat.ofDigitChars_toDigits (b := 10) (n := m) (by decide) (by decide), digits,
    Nat.ofDigitChars_toDigits (by decide) (by decide)]

theorem taken_of_firstFree {stem : String} {taken : List String} {n k : Nat}
    (member : firstFree stem taken n k ∈ taken) :
    ∀ i ≤ n, stem ++ toString (k + i) ∈ taken := by
  induction n generalizing k with
  | zero =>
    intro i bound
    obtain rfl := Nat.le_zero.1 bound
    exact member
  | succ n ih =>
    unfold firstFree at member
    simp only at member
    split at member
    · rename_i first
      intro i bound
      cases i with
      | zero => simpa using first
      | succ i =>
        have later := ih member i (by omega)
        rwa [Nat.add_assoc, Nat.add_comm 1 i] at later
    · rename_i free
      exact absurd (List.contains_iff_mem.2 member) free

theorem freshName_not_mem (stem : String) (start : Nat) (taken : List String) :
    freshName stem start taken ∉ taken := by
  intro member
  have all := taken_of_firstFree member
  have differ : ((List.range (taken.length + 1)).map
      fun i => stem ++ toString (start + i)).Nodup := by
    refine List.Nodup.map_on (fun i _ j _ same => ?_) List.nodup_range
    have numbers := repr_injective ((String.append_right_inj stem).1 same)
    omega
  have inside : ((List.range (taken.length + 1)).map
      fun i => stem ++ toString (start + i)) ⊆ taken := by
    intro name found
    obtain ⟨i, bound, rfl⟩ := List.mem_map.1 found
    exact all i (by have := List.mem_range.1 bound; omega)
  have count := (differ.subperm inside).length_le
  rw [List.length_map, List.length_range] at count
  omega

end NetSynthesis
