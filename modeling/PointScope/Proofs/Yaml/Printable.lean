import Mathlib.Tactic.SplitIfs
import PointScope.Yaml.Scan
import PointScope.Yaml.Write

/-!
# Written text is printable

Whatever the value of a key holds, its written form consists of printable characters: a style that
copies characters is chosen for printable text only, and double quotes replace the others by escape
sequences of letters and digits.

A printable text holds no character that YAML text cannot hold, and its line breaks are in normal
form already. So the scanner reads just the characters that were written. The main results are
`printable_writtenEntry` and `tokens_of_printable`.
-/

namespace PointScope.Yaml

/-! ### Printable characters -/

/-- Text that consists of printable characters. -/
def Printable (cs : List Char) : Prop := cs.all isPrintable

section Printable

variable {c : Char} {cs ds : List Char}

@[simp]
theorem printable_nil : Printable [] := rfl

@[simp]
theorem printable_cons : Printable (c :: cs) ↔ isPrintable c ∧ Printable cs := by
  simp [Printable]

@[simp]
theorem printable_append : Printable (cs ++ ds) ↔ Printable cs ∧ Printable ds := by
  simp [Printable]

/-- Every character of a printable text is printable. -/
theorem Printable.of_mem (h : Printable cs) (hc : c ∈ cs) : isPrintable c :=
  List.all_eq_true.mp h c hc

theorem Printable.flatMap {f : Char → List Char} (h : ∀ c, Printable (f c)) (cs : List Char) :
    Printable (cs.flatMap f) := by
  induction cs with
  | nil => exact printable_nil
  | cons c cs ih => exact List.flatMap_cons ▸ printable_append.mpr ⟨h c, ih⟩

end Printable

/-- A printable blank is a space. -/
theorem eq_space_of_isBlank {c : Char} (h : isPrintable c) (hb : isBlank c) : c = ' ' := by
  have htab : isPrintable '\t' = false := by decide
  simp only [isBlank, Bool.or_eq_true, decide_eq_true_eq] at hb
  obtain rfl | rfl := hb
  · rfl
  · simp [htab] at h

/-- A printable character may stand in YAML text. -/
private theorem isAllowed_of_isPrintable {c : Char} (h : isPrintable c) : isAllowed c := by
  simp only [isPrintable, isAllowed, Bool.or_eq_true, Bool.and_eq_true, decide_eq_true_eq] at h ⊢
  omega

/-- Printable text has its line breaks in normal form. -/
theorem normalizeBreaks_of_printable {cs : List Char} (h : Printable cs) :
    normalizeBreaks cs = cs := by
  have hreturn : isPrintable '\r' = false := by decide
  have hnext : isPrintable nextLine = false := by decide
  induction cs using normalizeBreaks.induct with
  | case1 => rfl
  | case2 cs ih => simp [hreturn] at h
  | case3 c cs hpair ih =>
    obtain ⟨hc, hcs⟩ := printable_cons.mp h
    have hne : ¬(c = '\r' ∨ c = nextLine) := by
      rintro (rfl | rfl)
      · simp [hreturn] at hc
      · simp [hnext] at hc
    rw [normalizeBreaks.eq_3 c cs hpair, ih hcs]
    simp [hne]

/-- The tokens of printable text are what the scanner finds in its characters. -/
theorem tokens_of_printable {cs : List Char} (h : Printable cs) :
    tokens (String.ofList cs) = Scanner.run (cs.length + 1) { cursor := ⟨cs, {}⟩ } := by
  have hfind : cs.find? (fun c => !isAllowed c) = none := by
    rw [List.find?_eq_none]
    intro c hc
    simpa using isAllowed_of_isPrintable (h.of_mem hc)
  simp only [tokens, String.toList_ofList, hfind, normalizeBreaks_of_printable h]

/-! ### Written text -/

private theorem printable_indentation : Printable indentation := rfl

private theorem isPrintable_hexDigit {d : Nat} (h : d < 16) : isPrintable (hexDigit d) := by
  revert d
  decide

private theorem printable_hexDigits (count n : Nat) : Printable (hexDigits count n) := by
  induction count generalizing n with
  | zero => exact printable_nil
  | succ count ih =>
    have hd : isPrintable (hexDigit (n % 16)) := isPrintable_hexDigit (Nat.mod_lt n (by decide))
    exact printable_append.mpr ⟨ih (n / 16), by simp [hd]⟩

theorem mem_writtenEscapes {c letter : Char} (h : writtenEscapes.lookup c = some letter) :
    (c, letter) ∈ writtenEscapes := by
  obtain ⟨before, after, hsplit, -⟩ := List.lookup_eq_some_iff.mp h
  simp [hsplit]

/-- The escape letters are printable. -/
theorem isPrintable_of_lookup {c letter : Char} (h : writtenEscapes.lookup c = some letter) :
    isPrintable letter := by
  have hall : ∀ entry ∈ writtenEscapes, isPrintable entry.2 := by decide
  exact hall (c, letter) (mem_writtenEscapes h)

/-- Escape sequences are printable. -/
private theorem printable_escaped (c : Char) : Printable (escaped c) := by
  have hback : isPrintable '\\' := by decide
  have hx : isPrintable 'x' := by decide
  have hu : isPrintable 'u' := by decide
  have hU : isPrintable 'U' := by decide
  -- what an escape is made of is printable
  unfold escaped
  split
  · next letter h => simp [hback, isPrintable_of_lookup h]
  · dsimp only
    split
    · simp [hback, hx, printable_hexDigits]
    · split <;> simp [hback, hu, hU, printable_hexDigits]

/-- Double quotes make every character printable. -/
theorem printable_doubleQuotedChar (c : Char) : Printable (doubleQuotedChar c) := by
  unfold doubleQuotedChar
  split
  · exact printable_escaped c
  · next h =>
    simp only [Bool.or_eq_true, Bool.not_eq_true', not_or] at h
    simpa using h.1.1.1

/-- Quotes and indentation are printable, so what stands in single quotes stays so. -/
theorem Printable.singleQuotedBody {cs : List Char} (h : Printable cs) (afterBreak : Bool) :
    Printable (singleQuotedBody afterBreak cs) := by
  induction cs generalizing afterBreak with
  | nil => cases afterBreak <;> rfl
  | cons c cs ih =>
    obtain ⟨hc, hcs⟩ := printable_cons.mp h
    have hrest (afterBreak : Bool) := ih hcs afterBreak
    have hindent := printable_indentation
    unfold Yaml.singleQuotedBody
    split_ifs <;> simp [hc, hrest, hindent]

/-- The lines of a printable text are printable when they are indented. -/
theorem Printable.literalLines {cs : List Char} (h : Printable cs) (atStart : Bool) :
    Printable (literalLines atStart cs) := by
  induction cs generalizing atStart with
  | nil => exact printable_nil
  | cons c cs ih =>
    obtain ⟨hc, hcs⟩ := printable_cons.mp h
    have hrest (atStart : Bool) := ih hcs atStart
    have hindent := printable_indentation
    unfold Yaml.literalLines
    split_ifs <;> simp [hc, hrest, hindent]

theorem printable_literalHeader (cs : List Char) : Printable (literalHeader cs) := by
  unfold literalHeader
  rcases cs.reverse with - | ⟨last, - | ⟨before, earlier⟩⟩ <;> dsimp only <;> split_ifs <;> rfl

/-! ### The style of a value -/

/-- What a text is like that a style is chosen for. Double quotes can hold any text, and no text is
written as a folded scalar. -/
def Style.Suits (cs : List Char) : Style → Prop
  | .plain => isAmbiguous cs = false ∧ allowsPlain cs
  | .singleQuoted => allowsSingleQuoted cs
  | .doubleQuoted => True
  | .literal => '\n' ∈ cs ∧ allowsLiteral cs
  | .folded => False

/-- **The style of a text suits it.** -/
theorem suits_writtenStyle (cs : List Char) : (writtenStyle cs).Suits cs := by
  unfold writtenStyle
  split_ifs with hfeed hliteral hplain hsingle
  · exact ⟨List.contains_iff_mem.mp hfeed, hliteral⟩
  · trivial
  · exact (by simpa using hplain : isAmbiguous cs = false ∧ allowsPlain cs)
  · exact hsingle
  · trivial

/-- Only printable text is written plain. -/
theorem Printable.of_allowsPlain {cs : List Char} (h : allowsPlain cs) : Printable cs := by
  simp only [allowsPlain, Bool.and_eq_true] at h
  exact h.1.1.1.1.1

/-- Only printable text is written in single quotes. -/
theorem Printable.of_allowsSingleQuoted {cs : List Char} (h : allowsSingleQuoted cs) :
    Printable cs := by
  simp only [allowsSingleQuoted, Bool.and_eq_true] at h
  exact h.1.1

/-- Only printable text is written as a literal scalar. -/
theorem Printable.of_allowsLiteral {cs : List Char} (h : allowsLiteral cs) : Printable cs := by
  simp only [allowsLiteral, Bool.and_eq_true] at h
  exact h.1.1

/-- The value of a key is printable in whichever style it is written. -/
theorem printable_writtenValue (cs : List Char) : Printable (writtenValue cs) := by
  have hfeed : isPrintable '\n' := by decide
  have hquotes : isPrintable '\'' ∧ isPrintable '"' := by decide
  have hsuits := suits_writtenStyle cs
  cases h : writtenStyle cs with
  | plain =>
    rw [h] at hsuits
    simp [writtenValue, h, Printable.of_allowsPlain hsuits.2, hfeed]
  | singleQuoted =>
    rw [h] at hsuits
    have hcs := Printable.of_allowsSingleQuoted hsuits
    simp [writtenValue, h, hcs.singleQuotedBody, hquotes, hfeed]
  | doubleQuoted =>
    simp [writtenValue, h, Printable.flatMap printable_doubleQuotedChar, hquotes, hfeed]
  | literal =>
    rw [h] at hsuits
    have hend : Printable (if cs.getLast?.any isBreak then [] else ['\n']) := by
      split_ifs <;> rfl
    simp only [writtenValue, h, printable_append, printable_cons]
    exact ⟨printable_literalHeader cs, hfeed,
      (Printable.of_allowsLiteral hsuits.2).literalLines true, hend⟩
  | folded =>
    rw [h] at hsuits
    exact hsuits.elim

/-- **What is written is printable**, whatever the text. -/
theorem printable_writtenEntry {key : String} (h : Printable key.toList) (text : String) :
    Printable (writtenEntry key text) := by
  have hcolon : isPrintable ':' := by decide
  have hspace : isPrintable ' ' := by decide
  simp only [writtenEntry, printable_append, printable_cons]
  exact ⟨h, hcolon, hspace, printable_writtenValue text.toList⟩

end PointScope.Yaml
