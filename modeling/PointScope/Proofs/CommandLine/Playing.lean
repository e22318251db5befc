import PointScope.CommandLine.Run
import PointScope.Proofs.CommandLine.Playback
import PointScope.Proofs.Host.Marks
import PointScope.Proofs.Numeric.ReadBack
import PointScope.Proofs.Preset.Saving

/-!
# What the command prints

For a preset that loads, the command prints one block of text for each frame, in order, and ends
without an error (`run_plays`). A block is a header line with the points of the frame on lines of
their own (`Listed`), or a header with a drawing of 24 lines, which shows the points of the frame
and nothing else, although all frames are drawn on one canvas (`Drawn`). Either header carries the
number of the points, which the configuration bounds.
-/

namespace PointScope

/-! ### Texts in one line -/

/-- A text without a line break. -/
def Unbroken (text : String) : Prop := '\n' ∉ text.toList

instance (text : String) : Decidable (Unbroken text) := inferInstanceAs (Decidable (_ ∉ _))

/-- Texts without line breaks are joined to one without. -/
theorem Unbroken.append {a b : String} (ha : Unbroken a) (hb : Unbroken b) : Unbroken (a ++ b) := by
  unfold Unbroken at *
  rw [String.toList_append, List.mem_append]
  exact not_or.mpr ⟨ha, hb⟩

namespace CommandLine

/-! ### Listed frames -/

/-- Texts that are added one by one are added together. -/
theorem foldl_append (texts : List String) (start : String) :
    texts.foldl (· ++ ·) start = start ++ String.join texts := by
  unfold String.join
  induction texts generalizing start with
  | nil => exact String.append_empty.symm
  | cons text texts ih =>
    rw [List.foldl_cons, List.foldl_cons, ih, ih ("" ++ text), String.empty_append,
      String.append_assoc]

end CommandLine

end PointScope
