import PointScope.CommandLine.Player
import PointScope.Scope.Config

/-!
# Running the command

What the command prints and how it ends, as a function of its arguments, of the files it can read
and of the settings file. Playing until interrupted is left to the program.
-/

namespace PointScope.CommandLine

/-- How the command ends. -/
inductive Outcome where
  /-- The arguments make no sense. -/
  | usage (fault : UsageFault)
  /-- Help was asked for. -/
  | help
  /-- The preset cannot be loaded. -/
  | loadFailed (path : String) (fault : FileFault)
  /-- The preset was played: what is printed, and how many diagnostics its scripts have. -/
  | played (output : String) (diagnostics : Nat)
deriving Inhabited

/-- The exit code. -/
def Outcome.exitCode : Outcome → UInt8
  | usage _ => 2
  | loadFailed _ _ => 1
  | help | played _ _ => 0

/-- What the command prints. -/
def Outcome.output : Outcome → String
  | played output _ => output
  | _ => ""

/-- Whether a preset could not be loaded. -/
def Outcome.isLoadFailure : Outcome → Bool
  | loadFailed _ _ => true
  | _ => false

/-- How many diagnostics the command reports, if there are any. -/
def Outcome.diagnostics? : Outcome → Option Nat
  | played _ n => if n = 0 then none else some n
  | _ => none

/-- Plays a preset and writes its frames. -/
def playAll (config : Config) (preset : Preset) (o : Options) : Outcome :=
  let (frames, p) := play config preset o
  let (output, _) := writeFrames o preset.name plotCanvas frames
  .played output p.scope.log.size

/-- Runs the command. The function `read` gives the content of a file, and `settings?` that of the
settings file. -/
def run (args : List String) (read : String → Except FileFault ByteArray)
    (settings? : Option ByteArray) : Outcome :=
  match readCommand args with
  | .error fault => .usage fault
  | .ok .help => .help
  | .ok (.play o) =>
    match (read o.preset).bind Preset.ofBytes with
    | .error fault => .loadFailed o.preset fault
    | .ok preset => playAll (.load settings?) preset o

end PointScope.CommandLine
