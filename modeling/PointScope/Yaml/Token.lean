/-!
# YAML tokens

What the reader finds in YAML text: directives and marks around documents, the structure given by
indentation, brackets and indicators, the properties of nodes, and scalars. `Fault` lists what
can be wrong with a text.
-/

namespace PointScope.Yaml

/-- The ways to write a scalar. -/
inductive Style where
  | plain
  | singleQuoted
  | doubleQuoted
  | literal
  | folded
deriving DecidableEq, Repr

/-- A token. -/
inductive Token where
  | versionDirective (major minor : Nat)
  | tagDirective (handle expansion : String)
  | documentStart
  | documentEnd
  | blockSequenceStart
  | blockMappingStart
  /-- The end of a collection that indentation delimits. -/
  | blockEnd
  | flowSequenceStart
  | flowSequenceEnd
  | flowMappingStart
  | flowMappingEnd
  | blockEntry
  | flowEntry
  | key
  | value
  | anchor (name : String)
  | alias (name : String)
  | tag (handle suffix : String)
  | scalar (style : Style) (text : String)
deriving DecidableEq, Repr

/-- What can be wrong with YAML text. -/
inductive Fault where
  /-- A character that YAML text cannot hold. -/
  | forbiddenCharacter (c : Char)
  /-- A character that no token starts with. -/
  | strayCharacter (c : Char)
  /-- An entry, key or value where none can stand. -/
  | misplacedIndicator
  /-- A key without its colon. -/
  | unfinishedKey
  /-- A malformed or unknown directive. -/
  | badDirective
  /-- A malformed anchor or alias. -/
  | badAnchor
  /-- A malformed tag. -/
  | badTag
  /-- A malformed first line of a block scalar. -/
  | badBlockHeader
  /-- A tab that takes part in indentation. -/
  | tabIndentation
  /-- A malformed escape sequence. -/
  | badEscape
  /-- A quoted scalar without its closing quote. -/
  | unclosedQuote
  /-- A document mark inside a quoted scalar. -/
  | markInQuote
  /-- A colon before a bracket, comma or question mark in a plain scalar inside brackets. -/
  | misplacedColon
  /-- A token where the grammar has none. -/
  | unexpectedToken
  /-- A tag whose handle no directive declares. -/
  | undeclaredHandle (handle : String)
  /-- An alias of an anchor that was not defined before. -/
  | unknownAnchor (name : String)
  /-- More than one document. -/
  | severalDocuments
  /-- A document that is not of the expected shape. -/
  | unexpectedShape
  /-- A key that occurs twice. -/
  | duplicateKey (name : String)
deriving DecidableEq, Repr

end PointScope.Yaml
