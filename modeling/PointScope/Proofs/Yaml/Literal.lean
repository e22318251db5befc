import PointScope.Proofs.Yaml.Plain
import PointScope.Yaml.Block

/-!
# Reading literal scalars back

A text of several lines is written with its lines indented and read line by line. `BlockState.next`
is what one character of the text makes of the state of the reader: it puts the character behind the
text so far (`BlockState.next_text`) and knows whether a line has begun. So the lines that are
written for a text lead to the state that its characters lead to (`readBlockLines_literalLines`).

What is left is the header. The chomping that it names keeps, of the breaks that the state holds
back, just those of the text (`BlockState.finish_written`), and it states the indentation where the
first line would not show it (`detectIndent_literalLines`). The main result is `readBlock_literal`.
-/

namespace PointScope.Yaml

/-! ### The state after a text -/

namespace BlockState

/-- The text so far, with the breaks that are held back. -/
def text (s : BlockState) : List Char := s.read.reverse ++ s.lastBreak ++ s.moreBreaks

/-- The state of the reader, and whether it is in a line, behind a further character. -/
def next (state : BlockState × Bool) (c : Char) : BlockState × Bool :=
  let (s, inLine) := state
  if isBreak c then
    (if inLine then { s with lastBreak := [c] } else { s with moreBreaks := s.moreBreaks ++ [c] },
      false)
  else (if inLine then { s with read := c :: s.read } else s.startLine false c, true)

/-- No breaks are held back within a line. -/
def IsSettled (state : BlockState × Bool) : Prop :=
  state.2 → state.1.lastBreak = [] ∧ state.1.moreBreaks = []

variable {state : BlockState × Bool} {c : Char}

@[simp]
private theorem next_inLine (state : BlockState × Bool) (c : Char) :
    (next state c).2 = !isBreak c := by
  unfold next
  cases isBreak c <;> rfl

/-- What is settled of a scalar stays so. -/
theorem IsSettled.next (h : IsSettled state) : IsSettled (next state c) := by
  obtain ⟨s, inLine⟩ := state
  intro hin
  have hbreak : isBreak c = false := by simpa using hin
  cases inLine with
  | false => simp [BlockState.next, hbreak, startLine]
  | true => simpa [BlockState.next, hbreak] using h rfl

/-- Every character joins the text. -/
theorem next_text (h : IsSettled state) : (next state c).1.text = state.1.text ++ [c] := by
  obtain ⟨s, inLine⟩ := state
  by_cases hbreak : isBreak c = true
  · cases inLine with
    | false => simp [next, hbreak, text]
    | true =>
      obtain ⟨hlast, hmore⟩ := h rfl
      simp only at hlast hmore
      simp [next, hbreak, text, hlast, hmore]
  · cases inLine with
    | false => simp [next, hbreak, text, startLine]
    | true =>
      obtain ⟨hlast, hmore⟩ := h rfl
      simp only at hlast hmore
      simp [next, hbreak, text, hlast, hmore]

/-- A text that is read from a settled state joins the text before it. -/
private theorem foldl_next (h : IsSettled state) (cs : List Char) :
    IsSettled (cs.foldl next state) ∧ (cs.foldl next state).1.text = state.1.text ++ cs := by
  induction cs generalizing state with
  | nil => exact ⟨h, (List.append_nil _).symm⟩
  | cons c cs ih =>
    obtain ⟨hsettled, htext⟩ := ih (h.next (c := c))
    refine ⟨hsettled, ?_⟩
    rw [List.foldl_cons, htext, next_text h, List.append_assoc, List.singleton_append]

end BlockState

/-! ### Lines -/

/-- What is written for one character of a literal scalar. -/
def literalChar (atStart : Bool) (c : Char) : List Char :=
  if isBreak c then [c] else (if atStart then indentation else []) ++ [c]

private theorem literalLines_cons (atStart : Bool) (c : Char) (cs : List Char) :
    literalLines atStart (c :: cs) = literalChar atStart c ++ literalLines (isBreak c) cs := by
  cases hbreak : isBreak c <;> simp [literalLines, literalChar, hbreak]

section Lines

variable {inLine : Bool} {s : BlockState} {m : Mark}

/-- What is written for a character leads to the state behind the character. Every line that holds
text is indented, so it starts where the scalar does. -/
theorem readBlockLines_literalChar (chomping : Chomping) (c : Char)
    (hm : inLine = false → m.column = 0) (rest : List Char) :
    ∃ m', ((BlockState.next (s, inLine) c).2 = false → m'.column = 0) ∧
      readBlockLines false chomping 2 inLine s m (literalChar (!inLine) c ++ rest) =
        readBlockLines false chomping 2 (BlockState.next (s, inLine) c).2
          (BlockState.next (s, inLine) c).1 m' rest := by
  by_cases hbreak : isBreak c = true
  · refine ⟨m.after c, fun _ => by simp [m.after_of_isBreak hbreak], ?_⟩
    cases inLine <;> simp [literalChar, readBlockLines, BlockState.next, hbreak]
  · cases inLine with
    | true =>
      refine ⟨m.after c, by simp [hbreak], ?_⟩
      simp [literalChar, readBlockLines, BlockState.next, hbreak]
    | false =>
      have hcolumn : m.column = 0 := hm rfl
      have hspace : isBreak ' ' = false := rfl
      have hafter (m : Mark) : m.after ' ' = m.right 1 := m.after_of_not_isBreak hspace
      refine ⟨(m.right 2).after c, by simp [hbreak], ?_⟩
      simp [literalChar, indentation, readBlockLines, BlockState.next, hbreak, hspace, hafter,
        hcolumn, Mark.right_right]

/-- **The lines of a literal scalar lead to the state behind its text.** -/
theorem readBlockLines_literalLines (chomping : Chomping) (cs : List Char)
    (hm : inLine = false → m.column = 0) (rest : List Char) :
    ∃ m', ((cs.foldl BlockState.next (s, inLine)).2 = false → m'.column = 0) ∧
      readBlockLines false chomping 2 inLine s m (literalLines (!inLine) cs ++ rest) =
        readBlockLines false chomping 2 (cs.foldl BlockState.next (s, inLine)).2
          (cs.foldl BlockState.next (s, inLine)).1 m' rest := by
  induction cs generalizing inLine s m with
  | nil => exact ⟨m, hm, rfl⟩
  | cons c cs ih =>
    have hstart : isBreak c = !(BlockState.next (s, inLine) c).2 := by simp
    obtain ⟨m₁, hm₁, hchar⟩ := readBlockLines_literalChar (s := s) chomping c hm
      (literalLines (isBreak c) cs ++ rest)
    obtain ⟨m₂, hm₂, hlines⟩ := ih (s := (BlockState.next (s, inLine) c).1) hm₁
    refine ⟨m₂, hm₂, ?_⟩
    rw [literalLines_cons, List.append_assoc, hchar, List.foldl_cons, hstart, hlines]

/-- A literal scalar ends where a line is not indented. -/
private theorem readBlockLines_stop (chomping : Chomping) {indent : Nat} (hindent : 0 < indent)
    (hm : m.column = 0) {rest : List Char} (hrest : StartsLine rest) :
    readBlockLines false chomping indent false s m rest = .ok (s.finish chomping, ⟨rest, m⟩) := by
  cases rest with
  | nil => rfl
  | cons c rest =>
    have hletter : c.isAlpha := hrest c rfl
    have hblank := isBlank_of_isAlpha hletter
    simp only [isBlank, Bool.or_eq_false_iff, decide_eq_false_iff_not] at hblank
    simp [readBlockLines, isBreak_of_isAlpha hletter, hm, hindent, hblank]

end Lines

/-! ### The end of the text -/

/-- What is written behind the lines of a literal scalar: the end of the last line, unless the text
itself ends it. -/
def literalEnd (cs : List Char) : List Char := if cs.getLast?.any isBreak then [] else ['\n']

/-- A literal value is its header, its lines, and the end of the last one. -/
theorem writtenValue_literal {cs : List Char} (h : writtenStyle cs = .literal) :
    writtenValue cs = literalHeader cs ++ '\n' :: (literalLines true cs ++ literalEnd cs) := by
  simp [writtenValue, h, literalEnd]

/-- The chomping that the header of a literal scalar asks for. -/
def writtenChomping (cs : List Char) : Chomping :=
  match cs.reverse with
  | [] => .strip
  | [last] => if isBreak last then .keep else .strip
  | last :: before :: _ =>
    if !isBreak last then .strip else if isBreak before then .keep else .clip

namespace BlockState

/-- The state of the reader behind a text. -/
def behind (cs : List Char) : BlockState × Bool := cs.foldl next ({}, false)

theorem behind_concat (cs : List Char) (c : Char) : behind (cs ++ [c]) = next (behind cs) c :=
  List.foldl_append

private theorem behind_settled (cs : List Char) : IsSettled (behind cs) :=
  (foldl_next (by simp [IsSettled]) cs).1

/-- Behind some lines the scanner has read their text. -/
private theorem behind_text (cs : List Char) : (behind cs).1.text = cs :=
  (foldl_next (by simp [IsSettled]) cs).2

/-- Behind some lines the scanner is in a line unless the text ends with a break. -/
private theorem behind_inLine {cs : List Char} (hcs : cs ≠ []) :
    (behind cs).2 = !cs.getLast?.any isBreak := by
  obtain ⟨before, last, rfl⟩ := cs.eq_nil_or_concat.resolve_left hcs
  rw [List.concat_eq_append, behind_concat, next_inLine, List.getLast?_concat]
  rfl

/-- The chomping of a text depends on its last character and on whether that one ends a line that
holds text. -/
theorem writtenChomping_concat (cs : List Char) (last : Char) :
    writtenChomping (cs ++ [last]) =
      if !isBreak last then .strip else if (behind cs).2 then .clip else .keep := by
  obtain rfl | ⟨before, c, rfl⟩ := cs.eq_nil_or_concat
  · cases hlast : isBreak last <;> simp [writtenChomping, behind, hlast]
  · cases hlast : isBreak last <;> cases hc : isBreak c <;>
      simp [writtenChomping, behind_concat, hlast, hc]

private theorem finish_keep (s : BlockState) : s.finish .keep = s.text :=
  (List.append_assoc s.read.reverse s.lastBreak s.moreBreaks).symm

/-- Where nothing is held back, dropping what is held back changes nothing. -/
private theorem finish_strip {state : BlockState × Bool} (h : IsSettled state) (hin : state.2) :
    state.1.finish .strip = state.1.text := by
  obtain ⟨hlast, hmore⟩ := h hin
  simp [finish, text, hlast, hmore]

/-- A single break behind a line is kept. -/
private theorem finish_clip {state : BlockState × Bool} (h : IsSettled state) (hin : state.2)
    {c : Char}
    (hc : isBreak c) : (next state c).1.finish .clip = (next state c).1.text := by
  obtain ⟨s, inLine⟩ := state
  obtain ⟨hlast, hmore⟩ := h hin
  simp only at hin hlast hmore
  simp [next, hc, hin, finish, text, hmore]

/-- The state in which the lines of a literal scalar leave the reader: a text that ends within a
line is written with a line feed behind it. -/
def written (cs : List Char) : BlockState :=
  if (behind cs).2 then { (behind cs).1 with lastBreak := ['\n'] } else (behind cs).1

/-- **The chomping of the header keeps the line breaks of the text and no others.** -/
theorem finish_written {cs : List Char} (hcs : cs ≠ []) :
    (written cs).finish (writtenChomping cs) = cs := by
  obtain ⟨before, last, rfl⟩ := cs.eq_nil_or_concat.resolve_left hcs
  have hsettled := behind_settled before
  have htext : (next (behind before) last).1.text = before ++ [last] := by
    rw [← behind_concat, behind_text]
  rw [List.concat_eq_append, writtenChomping_concat, written, behind_concat, next_inLine]
  by_cases hlast : isBreak last = true
  · by_cases hin : (behind before).2 = true
    · simp only [hlast, hin, Bool.not_true, Bool.false_eq_true, if_false, if_true,
        finish_clip hsettled hin hlast, htext]
    · simp only [hlast, hin, Bool.not_true, Bool.false_eq_true, if_false, finish_keep, htext]
  · have hin : (next (behind before) last).2 = true := by simp [hlast]
    simp only [hlast, Bool.not_false, if_true]
    exact (finish_strip hsettled.next hin).trans htext

end BlockState

/-! ### The header -/

/-- Whether the header of a literal scalar states the indentation, which the first line would
hide. -/
def statesIndent (cs : List Char) : Bool := cs.head?.any fun c => c = ' ' || isBreak c

/-- What a header says is read from it. -/
private theorem readBlockHeader_literalHeader (cs rest : List Char) :
    readBlockHeader ((literalHeader cs).tail ++ '\n' :: rest) =
      .ok (⟨writtenChomping cs, if statesIndent cs then some 2 else none⟩, '\n' :: rest) := by
  unfold literalHeader writtenChomping
  rw [← statesIndent]
  rcases cs.reverse with - | ⟨last, - | ⟨before, earlier⟩⟩ <;> dsimp only <;> split_ifs <;> rfl

/-- Where the header states no indentation, the first line shows it. -/
theorem detectIndent_literalLines {cs : List Char} (hcs : cs ≠ []) (hprintable : Printable cs)
    (h : statesIndent cs = false) (rest : List Char) :
    detectIndent 0 0 (literalLines true cs ++ rest) = .ok 2 := by
  obtain ⟨c, cs, rfl⟩ := List.exists_cons_of_ne_nil hcs
  simp only [statesIndent, List.head?_cons, Option.any_some, Bool.or_eq_false_iff,
    decide_eq_false_iff_not] at h
  obtain ⟨hspace, hbreak⟩ := h
  have htab : c ≠ '\t' := by
    rintro rfl
    simp [isPrintable] at hprintable
  simp [literalLines, hbreak, indentation, detectIndent, hspace, htab]

/-- The cursor behind a header, at the line break that ends it. -/
private theorem skip_header (header lines : List Char) (m : Mark) :
    ((Cursor.mk (header ++ '\n' :: lines) m).skip
      ((header ++ '\n' :: lines).length - ('\n' :: lines).length)).skipComment =
        ⟨'\n' :: lines, m.right header.length⟩ := by
  have hlength : (header ++ '\n' :: lines).length - ('\n' :: lines).length = header.length := by
    simp only [List.length_append, Nat.add_sub_cancel]
  have hskip : (Cursor.mk (header ++ '\n' :: lines) m).skip header.length =
      ⟨'\n' :: lines, m.right header.length⟩ := by
    simp [Cursor.skip, Mark.right]
  have hblank : isBlank '\n' = false := rfl
  rw [hlength, hskip]
  simp [Cursor.skipComment, Cursor.span, Cursor.skip, hblank, Mark.right]

/-- A header whose indentation is stated or shown, and the lines behind it. -/
private theorem readBlock_header {header lines : List Char} {chomping : Chomping}
    {increment : Option Nat}
    (hheader : readBlockHeader (header ++ '\n' :: lines) =
      .ok (⟨chomping, increment⟩, '\n' :: lines))
    (hindent : increment = some 2 ∨ increment = none ∧ detectIndent 0 0 lines = .ok 2) (m : Mark) :
    readBlock false 0 ⟨header ++ '\n' :: lines, m⟩ =
      readBlockLines false chomping 2 false {} ⟨m.line + 1, 0⟩ lines := by
  have hbreak : isBreak '\n' = true := rfl
  have hafter : (m.right header.length).after '\n' = ⟨m.line + 1, 0⟩ :=
    (m.right header.length).after_of_isBreak hbreak
  unfold readBlock
  rw [hheader]
  simp only [bind, Except.bind, skip_header, startsBreak, hbreak, Bool.not_true, Bool.false_eq_true,
    if_false, Cursor.skipBreak, if_true, hafter]
  obtain rfl | ⟨rfl, hdetect⟩ := hindent
  · rfl
  · simp only [hdetect]
    rfl

/-- Behind its last line a text leaves what `BlockState.written` says, and the scalar ends. -/
theorem readBlockLines_ending (chomping : Chomping) {cs : List Char} (hcs : cs ≠ []) {m : Mark}
    (hm : (BlockState.behind cs).2 = false → m.column = 0) {rest : List Char}
    (hrest : StartsLine rest) :
    ∃ m' : Mark, m'.column = 0 ∧
      readBlockLines false chomping 2 (BlockState.behind cs).2 (BlockState.behind cs).1 m
        (literalEnd cs ++ rest) =
          .ok ((BlockState.written cs).finish chomping, ⟨rest, m'⟩) := by
  have hlast := BlockState.behind_inLine hcs
  -- a last line that is not ended gets a line feed, which the chomping takes away again
  cases hin : (BlockState.behind cs).2 with
  | false =>
    refine ⟨m, hm hin, ?_⟩
    have hbreak : cs.getLast?.any isBreak = true := by simpa [hin] using hlast
    rw [literalEnd, if_pos hbreak, List.nil_append,
      readBlockLines_stop chomping (by decide) (hm hin) hrest]
    simp [BlockState.written, hin]
  | true =>
    have hfeed : isBreak '\n' = true := rfl
    have hafter : m.after '\n' = ⟨m.line + 1, 0⟩ := m.after_of_isBreak hfeed
    have hnot : ¬cs.getLast?.any isBreak = true := by simpa [hin] using hlast
    refine ⟨⟨m.line + 1, 0⟩, rfl, ?_⟩
    rw [literalEnd, if_neg hnot, List.singleton_append, readBlockLines]
    simp only [if_true, hfeed, hafter]
    rw [readBlockLines_stop chomping (by decide) rfl hrest]
    simp [BlockState.written, hin]

/-- **A literal scalar at the first level of a document is read back.** -/
theorem readBlock_literal {cs : List Char} (hcs : cs ≠ []) (h : allowsLiteral cs) (m : Mark)
    {rest : List Char} (hrest : StartsLine rest) :
    ∃ m' : Mark, m'.column = 0 ∧
      readBlock false 0 ⟨(literalHeader cs).tail ++ '\n' :: (literalLines true cs ++
        (literalEnd cs ++ rest)), m⟩ = .ok (cs, ⟨rest, m'⟩) := by
  have hindent (lines : List Char) : (if statesIndent cs then some 2 else none) = some 2 ∨
      (if statesIndent cs then some 2 else none) = none ∧
        detectIndent 0 0 (literalLines true cs ++ lines) = .ok 2 := by
    cases hstates : statesIndent cs with
    | true => exact .inl rfl
    | false =>
      exact .inr ⟨rfl, detectIndent_literalLines hcs (Printable.of_allowsLiteral h) hstates lines⟩
  rw [readBlock_header (readBlockHeader_literalHeader cs _) (hindent _)]
  have hline : false = false → (⟨m.line + 1, 0⟩ : Mark).column = 0 := fun _ => rfl
  obtain ⟨m₁, hm₁, hlines⟩ := readBlockLines_literalLines (s := {}) (writtenChomping cs) cs hline
    (literalEnd cs ++ rest)
  obtain ⟨m₂, hm₂, hend⟩ := readBlockLines_ending (writtenChomping cs) hcs hm₁ hrest
  refine ⟨m₂, hm₂, ?_⟩
  rw [BlockState.finish_written hcs] at hend
  exact hlines.trans hend

end PointScope.Yaml
