import PointScope.Scope.Phase
import PointScope.Storage.FileTree
import PointScope.Yaml.Record
import PointScope.Yaml.Write

/-!
# Presets

A preset is a name and a script for every phase. Presets are kept as YAML records with the fields
`name`, `init`, `frame`, `beat` and `point`; a field that is missing is empty.

Loading a preset reads a file and the YAML in it. Saving one creates the directories on the way
to the file first; they stay even if the file then cannot be written.
-/

namespace PointScope

/-- A named set of scripts. -/
structure Preset where
  name : String
  scripts : Phased String
deriving DecidableEq, Repr, Inhabited

namespace Preset

/-- Reads a preset from YAML text. -/
def ofYaml (text : String) : Except Yaml.Fault Preset := do
  let record ← Yaml.Record.ofText text
  let name ← record.text "name"
  let init ← record.text Phase.init.name
  let frame ← record.text Phase.frame.name
  let beat ← record.text Phase.beat.name
  let point ← record.text Phase.point.name
  return ⟨name, ⟨init, frame, beat, point⟩⟩

/-- The preset as YAML text: one entry for each field. -/
def toYaml (p : Preset) : String :=
  String.ofList (Yaml.writtenEntry "name" p.name ++
    Phase.all.flatMap fun phase => Yaml.writtenEntry phase.name (p.scripts.get phase))

/-! ### Files -/

/-- Reads a preset from the content of a file. -/
def ofBytes (content : ByteArray) : Except FileFault Preset :=
  match String.fromUTF8? content with
  | none => .error .invalidData
  | some text => (ofYaml text).mapError fun _ => .invalidData

/-- Loads the preset at a path. -/
def load (tree : FileTree) (path : List String) : Except FileFault Preset := do
  ofBytes (← tree.read path)

/-- Saves a preset at a path. Gives the tree afterwards, and what prevented saving, if anything
did. -/
def save (p : Preset) (tree : FileTree) (path : List String) : Option FileFault × FileTree :=
  match tree.createDirectories path.dropLast with
  | .error fault => (some fault, tree)
  | .ok prepared =>
    match prepared.write p.toYaml.toUTF8 path with
    | .error fault => (some fault, prepared)
    | .ok written => (none, written)

end Preset

end PointScope
