import PointScope.CommandLine.Run

/-!
# The program

Reads the files, runs the command, and prints. With `--watch` it goes on rendering frames, in
step with the frame rate, until it is interrupted.
-/

namespace PointScope.CommandLine

/-- What the program prints when asked for help. -/
def helpText : String :=
  "Run superscope presets in the terminal\n\n" ++
    "Usage: superscope [OPTIONS] <PRESET>\n\n" ++
    "Options:\n" ++
    "  -f, --frames <FRAMES>    Number of frames to render (ignored with --watch)\n" ++
    "      --fps <FPS>          Frames per second of the simulated render loop\n" ++
    "      --bpm <BPM>          Tempo of the simulated beat source\n" ++
    "      --width <WIDTH>      Canvas width passed to scripts as w\n" ++
    "      --height <HEIGHT>    Canvas height passed to scripts as h\n" ++
    "  -s, --samples <SAMPLES>  Force the sample count\n" ++
    "  -p, --plot               Draw each frame instead of listing points\n" ++
    "  -w, --watch              Keep rendering until interrupted\n" ++
    "  -v, --verbose            Report on loading\n" ++
    "  -h, --help               Print help\n"

/-- What is said about a command line that makes no sense. -/
def UsageFault.message : UsageFault → String
  | .unknownOption name => "unexpected argument '" ++ name ++ "'"
  | .missingValue _ => "an option lacks its value"
  | .unexpectedValue _ => "a flag takes no value"
  | .repeatedSetting _ | .repeatedFlag _ => "an option is given twice"
  | .badValue _ text => "invalid value '" ++ text ++ "'"
  | .missingPreset => "no preset is given"
  | .extraFile path => "unexpected argument '" ++ path ++ "'"

/-- What is said about a file that cannot be read. -/
def fileMessage : FileFault → String
  | .notFound => "no such file"
  | .notADirectory => "not a directory"
  | .isADirectory => "is a directory"
  | .alreadyExists => "already exists"
  | .invalidData => "invalid data"

/-- Reads a file. -/
def readFile (path : String) : IO (Except FileFault ByteArray) := do
  try
    return .ok (← IO.FS.readBinFile path)
  catch
    | .inappropriateType .. => return .error .isADirectory
    | _ => return .error .notFound

/-- The content of the settings file in the home directory. -/
def readSettings : IO (Option ByteArray) := do
  match ← IO.getEnv "HOME" with
  | none => return none
  | some home => return (← readFile ("/".intercalate (home :: Config.settingsPath))).toOption

/-- Renders frames until interrupted. -/
partial def watch (o : Options) (name : String) (p : Playback) (canvas : Canvas) (k : Nat) :
    IO Unit := do
  let (frame, p) := p.frame o k
  let (text, canvas) := frame.write o name canvas
  let out ← IO.getStdout
  if o.plot then out.putStr "\x1b[2J\x1b[H"
  out.putStr text
  out.flush
  IO.sleep (1000 / o.rate).toUInt32
  watch o name p canvas (k + 1)

/-- Prints how the command ended. -/
def Outcome.print (outcome : Outcome) : IO UInt32 := do
  match outcome with
  | .usage fault => IO.eprintln ("error: " ++ fault.message)
  | .help => IO.print helpText
  | .loadFailed path fault =>
    IO.eprintln ("failed to load preset " ++ path ++ ": " ++ fileMessage fault)
  | .played output n =>
    IO.print output
    if n ≠ 0 then IO.eprintln (toString n ++ " script diagnostic(s) reported")
  return outcome.exitCode.toUInt32

/-- Runs the program. -/
def start (args : List String) : IO UInt32 := do
  let settings ← readSettings
  match readCommand args with
  | .ok (.play o) =>
    let content ← readFile o.preset
    if o.watch then
      if let .ok preset := content.bind Preset.ofBytes then
        watch o preset.name (.start (.load settings) preset o) plotCanvas 0
    (run args (fun _ => content) settings).print
  | _ => (run args (fun _ => .error .notFound) settings).print

end PointScope.CommandLine

/-- The command line. -/
def main (args : List String) : IO UInt32 := PointScope.CommandLine.start args
