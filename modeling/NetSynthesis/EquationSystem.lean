import NetSynthesis.Error
import NetSynthesis.KernelBasis

/-! Systems of homogeneous linear equations with whole coefficients. -/
namespace NetSynthesis

structure EquationSystem where
  size : Nat
  equations : List IntVector := []
  lengths : ∀ e ∈ equations, e.length = size := by simp

namespace EquationSystem

def ofSize (n : Int) : Except Error EquationSystem :=
  if n < 0 then .error (.negativeSize n) else .ok { size := n.toNat }

def add (system : EquationSystem) (e : IntVector) : Except Error EquationSystem :=
  if fits : e.length = system.size then
    .ok ⟨system.size, system.equations ++ [e], by
      intro f mem
      rcases List.mem_append.1 mem with old | new
      · exact system.lengths f old
      · rw [List.mem_singleton.1 new]; exact fits⟩
  else .error (.equationLength e.length system.size)

/-- Missing entries of a vector count as zero, and entries without a coefficient do not count. -/
def isSolution (system : EquationSystem) (v : IntVector) : Bool :=
  system.equations.all (·.dot v == 0)

def basis (system : EquationSystem) : List IntVector :=
  KernelBasis.of system.size system.equations

def text (system : EquationSystem) : String :=
  s!"EquationSystem(num_variables={system.size}, equations=[" ++
    ", ".intercalate (system.equations.map Text.tuple) ++ "])"

end EquationSystem

end NetSynthesis
