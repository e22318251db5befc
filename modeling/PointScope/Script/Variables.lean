import Std.Data.ExtTreeMap

/-!
# Variables

The values of a script's variables by name. Names are compared as they are; whoever stores a
name decides its letter case beforehand.
-/

namespace PointScope.Script

/-- Variables by name. -/
structure Variables where
  /-- The variables that were set. -/
  values : Std.ExtTreeMap String Float

namespace Variables

/-- No variables. -/
def empty : Variables := ⟨∅⟩

instance : Inhabited Variables := ⟨empty⟩

/-- The value of a variable, if it was set. -/
def get? (v : Variables) (name : String) : Option Float := v.values[name]?

/-- The variables after one of them is set. -/
def set (v : Variables) (name : String) (value : Float) : Variables :=
  ⟨v.values.insert name value⟩

/-- How many variables are set. -/
def size (v : Variables) : Nat := v.values.size

/-- A variable has the value it was last set to, and setting one leaves the others. -/
theorem get?_set (v : Variables) (name other : String) (value : Float) :
    (v.set name value).get? other = if name = other then some value else v.get? other := by
  simp only [get?, set, Std.ExtTreeMap.getElem?_insert, Std.LawfulEqCmp.compare_eq_iff_eq]

/-- No variable is set among no variables. -/
theorem get?_empty (name : String) : empty.get? name = none := by
  simp [get?, empty]

end Variables

end PointScope.Script
