/-! Generated names: a stem followed by the least number, from a given one on, that gives a name
not taken yet. -/
namespace NetSynthesis

def firstFree (stem : String) (taken : List String) : Nat → Nat → String
  | 0, k => stem ++ toString k
  | n + 1, k =>
    let name := stem ++ toString k
    if taken.contains name then firstFree stem taken n (k + 1) else name

/-- Different numbers give different names, so it is enough to try as many as names are taken. -/
def freshName (stem : String) (start : Nat) (taken : List String) : String :=
  firstFree stem taken taken.length start

example : freshName "s" 1 ["s1", "a"] = "s2" := by decide +kernel
example : freshName "s" 0 [] = "s0" := by decide +kernel

end NetSynthesis
