import PointScope.Main
import PointScope.Scope.Ensemble
import PointScope.Proofs.Scope.Unchanged
import PointScope.Proofs.Scope.SampleCount
import PointScope.Proofs.Scope.Agreement
import PointScope.Proofs.Script.Pieces
import PointScope.Proofs.Script.Grammar
import PointScope.Proofs.Script.Sentence
import PointScope.Proofs.Numeric.ReadBack
import PointScope.Proofs.Script.Words
import PointScope.Proofs.Script.WellFormed
import PointScope.Proofs.Script.Precedence
import PointScope.Proofs.Script.Formation
import PointScope.Proofs.Script.Display
import PointScope.Proofs.Numeric.Packing
import PointScope.Proofs.Numeric.Rounding
import PointScope.Proofs.Numeric.Reading
import PointScope.Proofs.Numeric.Shortest
import PointScope.Proofs.Scope.Caching
import PointScope.Proofs.Scope.LetterCase
import PointScope.Proofs.Scope.Isolation
import PointScope.Proofs.Script.Dependence
import PointScope.Proofs.Numeric.Whole
import PointScope.Proofs.Scope.FrameNumber
import PointScope.Proofs.Scope.Rendering
import PointScope.Proofs.Scope.RandomStream
import PointScope.Proofs.Scope.Forgetting
import PointScope.Proofs.Yaml.Plain
import PointScope.Proofs.Yaml.Quoted
import PointScope.Proofs.Yaml.Literal
import PointScope.Proofs.Yaml.Entries
import PointScope.Proofs.Yaml.Records
import PointScope.Proofs.Preset.Saving
import PointScope.Proofs.Script.Munch
import PointScope.Proofs.Script.Positions
import PointScope.Proofs.Script.MissingParens
import PointScope.Proofs.Numeric.Bounds
import PointScope.Proofs.Host.Marks
import PointScope.Proofs.CommandLine.Playback
import PointScope.Proofs.CommandLine.Playing
import PointScope.Proofs.Script.Descent
import PointScope.Proofs.Script.Lockstep
import PointScope.Proofs.Script.Ending
import PointScope.Proofs.Script.Trees
import PointScope.Proofs.Script.Assigning
import PointScope.Proofs.Script.Ignored
import PointScope.Proofs.Script.Logic
import PointScope.Proofs.Scope.SampleRequests
import PointScope.Proofs.Script.Noticing
import PointScope.Proofs.Script.Pointing
import PointScope.Proofs.Scope.Logging
import PointScope.Proofs.Host.Beats
import PointScope.Proofs.Memory.Families
import PointScope.Proofs.Host.Drawing
import PointScope.Proofs.Script.Spelling
import PointScope.Proofs.Host.ExactGrid
import PointScope.Proofs.Scope.OneMap
