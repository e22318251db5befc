import PointScope.Numeric.Binary64
import PointScope.Numeric.Decimal

/-!
# Options

The command line names one preset file, and options that say how to play it. An option with a
value is written `--name value`, `--name=value`, `-n value`, `-n=value` or `-nvalue`; flags of one
letter may be written together, and an option with a value may end such a group. A value that
starts with a hyphen has to be attached. Everything behind `--` is a file. No option may be given
twice.
-/

namespace PointScope.CommandLine

/-- What the command line asks for. -/
structure Options where
  /-- The path of the preset file. -/
  preset : String
  /-- How many frames to render. -/
  frames : Nat := 1
  /-- Frames per second. -/
  fps : Float := 30
  /-- Beats per minute. -/
  bpm : Float := 120
  /-- The width that scripts see. -/
  width : Float := 640
  /-- The height that scripts see. -/
  height : Float := 480
  /-- A sample count that overrides the scripts. -/
  samples : Option Nat := none
  /-- Whether frames are drawn instead of listed. -/
  plot : Bool := false
  /-- Whether to go on until interrupted. -/
  watch : Bool := false
  /-- Whether to report on loading. -/
  verbose : Bool := false
deriving Inhabited

/-- The options that have a value. -/
inductive Setting where
  | frames | fps | bpm | width | height | samples
deriving DecidableEq, Repr

/-- The options that have none. -/
inductive Flag where
  | plot | watch | verbose | help
deriving DecidableEq, Repr

/-- An option of either kind. -/
abbrev Choice := Setting ⊕ Flag

/-- The options by their long names. -/
def longNames : List (String × Choice) :=
  [("frames", .inl .frames), ("fps", .inl .fps), ("bpm", .inl .bpm), ("width", .inl .width),
    ("height", .inl .height), ("samples", .inl .samples), ("plot", .inr .plot),
    ("watch", .inr .watch), ("verbose", .inr .verbose), ("help", .inr .help)]

/-- The options that have a short name. -/
def shortNames : List (Char × Choice) :=
  [('f', .inl .frames), ('s', .inl .samples), ('p', .inr .plot), ('w', .inr .watch),
    ('v', .inr .verbose), ('h', .inr .help)]

/-- What can be wrong with a command line. -/
inductive UsageFault where
  | unknownOption (name : String)
  | missingValue (s : Setting)
  | unexpectedValue (f : Flag)
  | repeatedSetting (s : Setting)
  | repeatedFlag (f : Flag)
  | badValue (s : Setting) (text : String)
  | missingPreset
  | extraFile (path : String)
deriving DecidableEq, Repr

/-! ### Reading arguments -/

/-- The arguments read so far. -/
structure Given where
  settings : List (Setting × String) := []
  flags : List Flag := []
  files : List String := []
deriving Inhabited

/-- Adds a value. -/
def Given.addSetting (g : Given) (s : Setting) (text : String) : Except UsageFault Given :=
  if (g.settings.lookup s).isSome then .error (.repeatedSetting s)
  else .ok { g with settings := (s, text) :: g.settings }

/-- Adds a flag. -/
def Given.addFlag (g : Given) (f : Flag) : Except UsageFault Given :=
  if g.flags.contains f then .error (.repeatedFlag f)
  else .ok { g with flags := f :: g.flags }

/-- Reads a group of short options. An option with a value takes the rest of the group, without an
equals sign in front; if there is no rest, it is left waiting for the next argument. -/
def readGroup (g : Given) : List Char → Except UsageFault (Given × Option Setting)
  | [] => .ok (g, none)
  | c :: cs =>
    match shortNames.lookup c with
    | none => .error (.unknownOption c.toString)
    | some (.inr f) => do readGroup (← g.addFlag f) cs
    | some (.inl s) =>
      match cs with
      | [] => .ok (g, some s)
      | '=' :: value => do return (← g.addSetting s (String.ofList value), none)
      | value => do return (← g.addSetting s (String.ofList value), none)

/-- Reads a long option, from behind its two hyphens. -/
def readLong (g : Given) (cs : List Char) : Except UsageFault (Given × Option Setting) := do
  let name := String.ofList (cs.takeWhile (· != '='))
  let attached? : Option String := match cs.dropWhile (· != '=') with
    | [] => none
    | _ :: value => some (String.ofList value)
  match longNames.lookup name, attached? with
  | none, _ => throw (.unknownOption name)
  | some (.inr f), none => return (← g.addFlag f, none)
  | some (.inr f), some _ => throw (.unexpectedValue f)
  | some (.inl s), some value => return (← g.addSetting s value, none)
  | some (.inl s), none => return (g, some s)

/-- Reads the arguments. An option that is waiting for its value takes the next argument, unless
that looks like an option; asking for help ends the reading. -/
def readArgs (g : Given) (waiting : Option Setting) : List String → Except UsageFault Given
  | [] => match waiting with
    | some s => .error (.missingValue s)
    | none => .ok g
  | arg :: rest =>
    match arg.toList, waiting with
    | '-' :: _ :: _, some s => .error (.missingValue s)
    | ['-', '-'], none => .ok { g with files := g.files ++ rest }
    | '-' :: '-' :: cs, none => do
      let (g, waiting) ← readLong g cs
      if g.flags.contains .help then return g
      readArgs g waiting rest
    | '-' :: c :: cs, none => do
      let (g, waiting) ← readGroup g (c :: cs)
      if g.flags.contains .help then return g
      readArgs g waiting rest
    | _, some s => do readArgs (← g.addSetting s arg) none rest
    | _, none => readArgs { g with files := g.files ++ [arg] } none rest

/-! ### Values -/

/-- Reads a count: digits, with an optional plus sign, of a number that 64 bits can hold. -/
def readCount? (text : String) : Option Nat :=
  (Decimal.readNat? (Decimal.dropPlus text.toList)).filter (· ≤ Binary64.maxCount)

/-- Sets what a value of an option sets. -/
def Options.apply (o : Options) (s : Setting) (text : String) : Except UsageFault Options :=
  let updated : Option Options := match s with
    | .frames => (readCount? text).map fun n => { o with frames := n }
    | .samples => (readCount? text).map fun n => { o with samples := some n }
    | .fps => (readDouble? text).map fun x => { o with fps := x }
    | .bpm => (readDouble? text).map fun x => { o with bpm := x }
    | .width => (readDouble? text).map fun x => { o with width := x }
    | .height => (readDouble? text).map fun x => { o with height := x }
  match updated with
  | some o => .ok o
  | none => .error (.badValue s text)

/-- What a command line is for. -/
inductive Request where
  | help
  | play (o : Options)
deriving Inhabited

/-- Reads a command line. -/
def readCommand (args : List String) : Except UsageFault Request := do
  let given ← readArgs {} none args
  if given.flags.contains .help then return .help
  match given.files with
  | [] => throw .missingPreset
  | [path] =>
    if path.isEmpty then throw .missingPreset
    let o : Options :=
      { preset := path
        plot := given.flags.contains .plot
        watch := given.flags.contains .watch
        verbose := given.flags.contains .verbose }
    return .play (← given.settings.foldlM (fun o (s, text) => o.apply s text) o)
  | _ :: path :: _ => throw (.extraFile path)

end PointScope.CommandLine
