import PointScope.Numeric.Binary64
import PointScope.Yaml.Number
import PointScope.Yaml.Parse
import PointScope.Yaml.Scan

/-!
# Records in YAML

A record is a document whose root is a mapping from names to scalars; an empty document is a
record without fields. Fields that nobody asks for may hold anything; a field that is asked for
may occur once.
-/

namespace PointScope.Yaml

/-- A document read as a record: its fields in order, by name. -/
structure Record where
  document : Document := { root := emptyNode }
  fields : List (String × Node) := []
deriving Inhabited

namespace Record

/-- Reads a document as a record. -/
def ofDocument (d : Document) : Except Fault Record :=
  match d.root with
  | .mapping entries => do
    let fields ← entries.mapM fun (key, value) =>
      match d.scalar? key with
      | some s => .ok (s.text, value)
      | none => .error Fault.unexpectedShape
    return ⟨d, fields⟩
  | .scalar s => if s.style = .plain && s.text.isEmpty then .ok ⟨d, []⟩ else .error .unexpectedShape
  | _ => .error .unexpectedShape

/-- Reads YAML text as a record. -/
def ofText (text : String) : Except Fault Record := do
  match ← readStream (← tokens text) with
  | none => return {}
  | some d => ofDocument d

/-- The scalar in a field, if the record has the field. -/
def scalar? (r : Record) (name : String) : Except Fault (Option Scalar) :=
  match r.fields.filter fun (key, _) => key == name with
  | [] => .ok none
  | [(_, node)] => match r.document.scalar? node with
    | some s => .ok (some s)
    | none => .error .unexpectedShape
  | _ => .error (.duplicateKey name)

/-- The text in a field, as it is written; empty if the record lacks the field. -/
def text (r : Record) (name : String) : Except Fault String := do
  return ((← r.scalar? name).map Scalar.text).getD ""

/-- The tag of whole numbers. -/
def wholeNumberTag : String := "tag:yaml.org,2002:int"

/-- The count in a field: a plain whole number that 64 bits can hold, or a literal scalar that is
tagged as one. -/
def count (r : Record) (name : String) (default : Nat) : Except Fault Nat := do
  match ← r.scalar? name with
  | none => return default
  | some s =>
    let isNumber := s.style = .plain || (s.style = .literal && s.tag = wholeNumberTag)
    match if isNumber then readNatural? (Binary64.maxCount + 1) s.text.toList else none with
    | some n => return n
    | none => throw .unexpectedShape

end Record

end PointScope.Yaml
