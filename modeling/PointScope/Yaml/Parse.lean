import PointScope.Yaml.Node

/-!
# From YAML tokens to documents

A recursive descent over the tokens. A node may be left out wherever its surroundings allow it;
then it is an empty plain scalar. Anchors are numbered in the order of the text: the number of an
anchor is the count of different anchor names before it, and an alias has the number that its name
has at that place.
-/

namespace PointScope.Yaml

/-- What the parser knows besides the tokens. -/
structure Anchors where
  /-- The numbers of the anchor names so far, newest first. -/
  numbers : List (String × Nat) := []
  /-- The nodes with anchors so far, newest first. -/
  anchored : List (Nat × Option Scalar) := []
deriving Inhabited

namespace Anchors

/-- How many different names there are. -/
def count (a : Anchors) : Nat := (a.numbers.map (·.1)).eraseDups.length

/-- Gives a node its anchor, if it has one. -/
def define (a : Anchors) (name? : Option String) (s : Option Scalar) : Anchors :=
  match name? with
  | none => a
  | some name => ⟨(name, a.count) :: a.numbers, (a.count, s) :: a.anchored⟩

end Anchors

/-- A parser of part of the tokens: it takes the anchors so far and the tokens to read. -/
abbrev TokenParser (α : Type) := Anchors → List Token → Except Fault (α × Anchors × List Token)

/-- The scalar that stands for a node that is left out. -/
def emptyNode : Node := .scalar {}

/-- The properties in front of a node: an anchor and a tag with its handle, in either order. -/
structure Properties where
  anchor : Option String := none
  tag : Option (String × String) := none
deriving Inhabited

/-- Splits off the properties in front of a node. -/
def splitProperties : List Token → Properties × List Token
  | .anchor a :: .tag h s :: ts => (⟨some a, some (h, s)⟩, ts)
  | .anchor a :: ts => (⟨some a, none⟩, ts)
  | .tag h s :: .anchor a :: ts => (⟨some a, some (h, s)⟩, ts)
  | .tag h s :: ts => (⟨none, some (h, s)⟩, ts)
  | ts => ({}, ts)

/-- What the handles of tags stand for. -/
abbrev Handles := List (String × String)

/-- The full tag: what its handle stands for, and its suffix. -/
def resolveTag (handles : Handles) : Option (String × String) → Except Fault String
  | none => .ok ""
  | some (handle, suffix) =>
    if handle.isEmpty then .ok suffix
    else match handles.lookup handle with
      | some expansion => .ok (expansion ++ suffix)
      | none => .error (.undeclaredHandle handle)

/-- Whether the next token is one of those given, or there is none. -/
def nextIs (expected : List Token) (ts : List Token) : Bool :=
  match ts with
  | [] => false
  | t :: _ => expected.contains t

mutual

/-- Reads a node. Where a block collection may start, `inBlock` holds; where the entries of a
sequence may stand without indentation of their own, `atKey` holds too. -/
def readNode (handles : Handles) (inBlock atKey : Bool) : Nat → TokenParser Node
  | 0, _, _ => .error .unexpectedToken
  | fuel + 1, a, ts => do
    if let .alias name :: ts := ts then
      match a.numbers.lookup name with
      | some number => return (.alias number, a, ts)
      | none => throw (.unknownAnchor name)
    let (props, ts) := splitProperties ts
    let tag ← resolveTag handles props.tag
    let collection := a.define props.anchor none
    let absent : Except Fault (Node × Anchors × List Token) :=
      if props.anchor.isNone && props.tag.isNone then throw .unexpectedToken
      else
        let s : Scalar := { tag }
        return (.scalar s, a.define props.anchor (some s), ts)
    match ts with
    | .scalar style text :: ts =>
      let s : Scalar := { style, tag, text }
      return (.scalar s, a.define props.anchor (some s), ts)
    | .flowSequenceStart :: ts =>
      let (items, a, ts) ← readFlowItems handles fuel true collection ts
      return (.sequence items, a, ts)
    | .flowMappingStart :: ts =>
      let (entries, a, ts) ← readFlowEntries handles fuel true collection ts
      return (.mapping entries, a, ts)
    | .blockEntry :: _ =>
      if !atKey then absent
      else
        let (items, a, ts) ← readLooseItems handles fuel collection ts
        return (.sequence items, a, ts)
    | .blockSequenceStart :: ts =>
      if !inBlock then absent
      else
        let (items, a, ts) ← readBlockItems handles fuel collection ts
        return (.sequence items, a, ts)
    | .blockMappingStart :: ts =>
      if !inBlock then absent
      else
        let (entries, a, ts) ← readBlockEntries handles fuel collection ts
        return (.mapping entries, a, ts)
    | _ => absent

/-- Reads a node, or leaves it out if the next token is one of those given. -/
def readOptional (handles : Handles) (inBlock atKey : Bool) (absent : List Token) :
    Nat → TokenParser Node
  | 0, _, _ => .error .unexpectedToken
  | fuel + 1, a, ts =>
    if nextIs absent ts then .ok (emptyNode, a, ts)
    else readNode handles inBlock atKey fuel a ts

/-- Reads the entries of an indented sequence and its end. -/
def readBlockItems (handles : Handles) : Nat → TokenParser (List Node)
  | 0, _, _ => .error .unexpectedToken
  | fuel + 1, a, ts => do
    match ts with
    | .blockEntry :: ts =>
      let (item, a, ts) ← readOptional handles true false [.blockEntry, .blockEnd] fuel a ts
      let (items, a, ts) ← readBlockItems handles fuel a ts
      return (item :: items, a, ts)
    | .blockEnd :: ts => return ([], a, ts)
    | _ => throw .unexpectedToken

/-- Reads the entries of a sequence that has no indentation of its own. -/
def readLooseItems (handles : Handles) : Nat → TokenParser (List Node)
  | 0, _, _ => .error .unexpectedToken
  | fuel + 1, a, ts => do
    match ts with
    | .blockEntry :: ts =>
      let (item, a, ts) ←
        readOptional handles true false [.blockEntry, .key, .value, .blockEnd] fuel a ts
      let (items, a, ts) ← readLooseItems handles fuel a ts
      return (item :: items, a, ts)
    | ts => return ([], a, ts)

/-- Reads the entries of an indented mapping and its end. -/
def readBlockEntries (handles : Handles) : Nat → TokenParser (List (Node × Node))
  | 0, _, _ => .error .unexpectedToken
  | fuel + 1, a, ts => do
    match ts with
    | .key :: ts =>
      let (k, a, ts) ← readOptional handles true true [.key, .value, .blockEnd] fuel a ts
      let (v, a, ts) ← match ts with
        | .value :: ts => readOptional handles true true [.key, .value, .blockEnd] fuel a ts
        | ts => pure (emptyNode, a, ts)
      let (entries, a, ts) ← readBlockEntries handles fuel a ts
      return ((k, v) :: entries, a, ts)
    | .blockEnd :: ts => return ([], a, ts)
    | _ => throw .unexpectedToken

/-- Reads the entries of a sequence in brackets and the closing bracket. -/
def readFlowItems (handles : Handles) : Nat → Bool → TokenParser (List Node)
  | 0, _, _, _ => .error .unexpectedToken
  | fuel + 1, isFirst, a, ts => do
    if let .flowSequenceEnd :: ts := ts then return ([], a, ts)
    let ts ← match isFirst, ts with
      | true, ts => pure ts
      | false, .flowEntry :: ts => pure ts
      | false, _ => throw .unexpectedToken
    match ts with
    | .flowSequenceEnd :: ts => return ([], a, ts)
    | .key :: ts =>
      let (pair, a, ts) ← readFlowPair handles fuel a ts
      let (items, a, ts) ← readFlowItems handles fuel false a ts
      return (.mapping [pair] :: items, a, ts)
    | ts =>
      let (item, a, ts) ← readNode handles false false fuel a ts
      let (items, a, ts) ← readFlowItems handles fuel false a ts
      return (item :: items, a, ts)

/-- Reads a mapping of one entry among the entries of a sequence in brackets, behind its `key`
token. If the key is left out, so is the token that follows. -/
def readFlowPair (handles : Handles) : Nat → TokenParser (Node × Node)
  | 0, _, _ => .error .unexpectedToken
  | fuel + 1, a, ts => do
    let (k, a, ts) ←
      if nextIs [.value, .flowEntry, .flowSequenceEnd] ts then pure (emptyNode, a, ts.tail)
      else readNode handles false false fuel a ts
    match ts with
    | .value :: ts =>
      let (v, a, ts) ← readOptional handles false false [.flowEntry, .flowSequenceEnd] fuel a ts
      return ((k, v), a, ts)
    | ts => return ((k, emptyNode), a, ts)

/-- Reads the entries of a mapping in brackets and the closing bracket. -/
def readFlowEntries (handles : Handles) : Nat → Bool → TokenParser (List (Node × Node))
  | 0, _, _, _ => .error .unexpectedToken
  | fuel + 1, isFirst, a, ts => do
    if let .flowMappingEnd :: ts := ts then return ([], a, ts)
    let ts ← match isFirst, ts with
      | true, ts => pure ts
      | false, .flowEntry :: ts => pure ts
      | false, _ => throw .unexpectedToken
    match ts with
    | .flowMappingEnd :: ts => return ([], a, ts)
    | .key :: ts =>
      let (k, a, ts) ←
        readOptional handles false false [.value, .flowEntry, .flowMappingEnd] fuel a ts
      let (v, a, ts) ← match ts with
        | .value :: ts => readOptional handles false false [.flowEntry, .flowMappingEnd] fuel a ts
        | ts => pure (emptyNode, a, ts)
      let (entries, a, ts) ← readFlowEntries handles fuel false a ts
      return ((k, v) :: entries, a, ts)
    | ts =>
      let (k, a, ts) ← readNode handles false false fuel a ts
      let (entries, a, ts) ← readFlowEntries handles fuel false a ts
      return ((k, emptyNode) :: entries, a, ts)

end

/-! ### Documents -/

/-- Whether a token is a directive. -/
def Token.isDirective : Token → Bool
  | .versionDirective .. | .tagDirective .. => true
  | _ => false

/-- The handles that directives declare. A second version, another version than 1.1 and 1.2, and a
second declaration of a handle are faults. -/
def readDirectives (hasVersion : Bool) (handles : Handles) : List Token → Except Fault Handles
  | [] => .ok handles
  | .versionDirective major minor :: ts =>
    if hasVersion || major ≠ 1 || (minor ≠ 1 && minor ≠ 2) then .error .badDirective
    else readDirectives true handles ts
  | .tagDirective handle expansion :: ts =>
    if (handles.lookup handle).isSome then .error .badDirective
    else readDirectives hasVersion ((handle, expansion) :: handles) ts
  | _ :: ts => readDirectives hasVersion handles ts

/-- The handles that every document knows. -/
def defaultHandles : Handles := [("!", "!"), ("!!", "tag:yaml.org,2002:")]

/-- Reads the root of a document. Behind an explicit start it may be left out. -/
def readRoot (isExplicit : Bool) (handles : Handles) (ts : List Token) :
    Except Fault (Node × Anchors × List Token) :=
  let isAbsent := match ts with
    | [] => true
    | .documentStart :: _ | .documentEnd :: _ => true
    | t :: _ => t.isDirective
  if isExplicit && isAbsent then .ok (emptyNode, {}, ts)
  else readNode (handles ++ defaultHandles) true false (3 * ts.length + 3) {} ts

/-- Reads a stream of at most one document; `none` if there is no document in it. -/
def readStream (ts : List Token) : Except Fault (Option Document) := do
  if ts.isEmpty then return none
  let handles ← readDirectives false [] (ts.takeWhile Token.isDirective)
  let body := ts.dropWhile Token.isDirective
  let (root, a, rest) ← match body with
    | .documentStart :: body => readRoot true handles body
    | body => if body.length = ts.length then readRoot false handles body else throw .badDirective
  match rest.dropWhile (· == .documentEnd) with
  | [] => return some ⟨root, a.anchored⟩
  | .documentStart :: _ => throw .severalDocuments
  | _ => throw .unexpectedToken

end PointScope.Yaml
