import PointScope.Yaml.Record

/-!
# Configuration

The range that a scope's sample count is held in, the count it starts with, and the seed of its
random stream. Any numbers can be configured; `normalized` makes the range usable.

The configuration is kept in a settings file in the home directory, a YAML record with the fields
`min_samples`, `max_samples`, `default_samples` and `seed`. What is missing has its usual value,
and so has everything if the file is missing or cannot be read.
-/

namespace PointScope

/-- The configuration of a scope. -/
structure Config where
  minSamples : Nat := 16
  maxSamples : Nat := 8192
  defaultSamples : Nat := 100
  seed : Nat := 0
deriving DecidableEq, Repr, Inhabited

namespace Config

/-- A count held between the least and the greatest number of samples. -/
def clamp (c : Config) (samples : Nat) : Nat := max c.minSamples (min samples c.maxSamples)

/-- As `clamp`, but only for a range that is in order: no count lies in an inverted one. -/
def clamp? (c : Config) (samples : Nat) : Option Nat :=
  if c.minSamples ≤ c.maxSamples then some (c.clamp samples) else none

/-- The configuration with an inverted range turned around, at least one sample, and the default
inside the range: `1 ≤ minSamples ≤ defaultSamples ≤ maxSamples`. -/
def normalized (c : Config) : Config :=
  let low := max (min c.minSamples c.maxSamples) 1
  let high := max (max c.minSamples c.maxSamples) low
  let ranged := { c with minSamples := low, maxSamples := high }
  { ranged with defaultSamples := ranged.clamp c.defaultSamples }

/-! ### Settings files -/

/-- Reads a configuration from YAML text. -/
def ofYaml (text : String) : Except Yaml.Fault Config := do
  let record ← Yaml.Record.ofText text
  let usual : Config := {}
  let minSamples ← record.count "min_samples" usual.minSamples
  let maxSamples ← record.count "max_samples" usual.maxSamples
  let defaultSamples ← record.count "default_samples" usual.defaultSamples
  let seed ← record.count "seed" usual.seed
  return { minSamples, maxSamples, defaultSamples, seed : Config }.normalized

/-- Where the settings file is, from the home directory. -/
def settingsPath : List String := [".superscope", "config.yaml"]

/-- The configuration in a settings file with the given content, if there is one. -/
def load (content? : Option ByteArray) : Config :=
  let config? := do
    let text ← String.fromUTF8? (← content?)
    (ofYaml text).toOption
  config?.getD {}

end Config

end PointScope
