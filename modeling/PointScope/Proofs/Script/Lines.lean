import PointScope.Proofs.Script.Pieces
import PointScope.Script.Evaluation
import PointScope.Script.Parser

/-!
# Scripts line by line

Whatever is wrong with a line of a script stays in that line: compiling two texts with a line
break between them gives the statements of the first and then those of the second
(`compile_append_newline`). The diagnostics are the same as for the two texts by themselves,
except that those of the second stand as many lines further down as the first text and the line
break take.

Two facts carry this. Positions never decide anything: moving all tokens moves all diagnostics
with them (`parse_relocate`). And the tokens of the joined text are those of the first text, a
separator in the place of its end, and the moved tokens of the second (`tokens_append_newline`).
-/

namespace PointScope.Script

/-! ### Moving positions -/

/-- The place `k` lines further down. -/
def Position.below (p : Position) (k : Nat) : Position := ⟨p.line + k, p.column⟩

/-- The same token somewhere else. -/
def Token.relocate (f : Position → Position) (t : Token) : Token :=
  { t with position := f t.position }

/-- The same diagnostic somewhere else. -/
def Diagnostic.relocate (f : Position → Position) (d : Diagnostic) : Diagnostic :=
  { d with position := f d.position }

/-- The same step with its diagnostics somewhere else. -/
def Step.relocate (f : Position → Position) (s : Step) : Step :=
  { s with diagnostics := s.diagnostics.map (.relocate f) }

/-- The same parsed text with its diagnostics somewhere else. -/
def Parsed.relocate (f : Position → Position) (p : Parsed) : Parsed :=
  { p with diagnostics := p.diagnostics.map (.relocate f) }

/-- The same line somewhere else. -/
def Line.relocate (f : Position → Position) (l : Line) : Line :=
  ⟨l.tokens.map (.relocate f), f l.stop⟩

section Relocate

variable (f : Position → Position)

@[simp]
private theorem Token.relocate_kind (t : Token) : (t.relocate f).kind = t.kind := rfl

@[simp]
theorem Token.relocate_text (t : Token) : (t.relocate f).text = t.text := rfl

@[simp]
private theorem Token.relocate_position (t : Token) : (t.relocate f).position = f t.position := rfl

private theorem Step.relocate_report (issues : List Issue) (p : Position) (s : Step) :
    (s.report issues p).relocate f = (s.relocate f).report issues (f p) := by
  simp [Step.relocate, Step.report, Diagnostic.relocate]

private theorem Parsed.relocate_append (a b : Parsed) :
    (a ++ b).relocate f = a.relocate f ++ b.relocate f := by
  change Parsed.relocate f (Parsed.append a b) = Parsed.append _ _
  simp [Parsed.relocate, Parsed.append]

private theorem startOperand_relocate (ctx : Context) (t : Token) (next : Position) :
    startOperand ctx (t.relocate f) (f next) = (startOperand ctx t next).map (.relocate f) := by
  unfold startOperand
  cases hkind : t.kind with
  | operator op =>
    cases hunary : op.unary? <;> simp [hkind, hunary, Step.relocate, Step.report,
      Diagnostic.relocate]
  | _ => simp [hkind, Step.relocate]

private theorem stepIdle_relocate (t : Token) (next : Position) :
    stepIdle (t.relocate f) (f next) = (stepIdle t next).relocate f := by
  unfold stepIdle
  rw [startOperand_relocate]
  cases startOperand {} t next with
  | some step => rfl
  | none => rw [Option.map_none, Step.relocate_report]; rfl

private theorem closeCall_relocate (ctx : Context) (name : String) (args : List Expr)
    (next : Position) :
    closeCall ctx name args (f next) = (closeCall ctx name args next).relocate f := by
  unfold closeCall
  rw [Step.relocate_report]
  rfl

private theorem continueValue_relocate (ctx : Context) (e : Expr) (kind : TokenKind)
    (next : Position) :
    continueValue ctx e kind (f next) = (continueValue ctx e kind next).map (.relocate f) := by
  unfold continueValue
  split
  · split <;> rfl
  · rfl
  · rw [closeCall_relocate, Option.map_some]
  · rfl
  · rfl

private theorem endStatement_relocate (statement : Statement) (t : Token) (next : Position) :
    endStatement statement (t.relocate f) (f next) =
      (endStatement statement t next).relocate f := by
  unfold endStatement
  rw [stepIdle_relocate]
  rfl

private theorem stepValue_relocate (ctx : Context) (e : Expr) (t : Token) (next : Position) :
    stepValue ctx e (t.relocate f) (f next) = (stepValue ctx e t next).relocate f := by
  unfold stepValue
  rw [Token.relocate_kind, Token.relocate_position]
  -- which frames are completed depends on the kind of the token only
  obtain ⟨frames, e, issues⟩ := settle (Frame.staysOpen t.kind) ctx.frames e
  dsimp only
  rw [Step.relocate_report, continueValue_relocate, endStatement_relocate, Option.getD_map]

private theorem stepOperand_relocate (ctx : Context) (t : Token) (next : Position) :
    stepOperand ctx (t.relocate f) (f next) = (stepOperand ctx t next).relocate f := by
  unfold stepOperand
  rw [Token.relocate_kind]
  split
  · exact closeCall_relocate f _ _ _ _
  · rw [startOperand_relocate]
    cases startOperand ctx t next with
    | some step => rfl
    | none =>
      rw [Option.map_none, stepValue_relocate, Token.relocate_position, ← Step.relocate_report]

private theorem stepNamed_relocate (ctx : Context) (name : String) (t : Token) (next : Position) :
    stepNamed ctx name (t.relocate f) (f next) = (stepNamed ctx name t next).relocate f := by
  unfold stepNamed
  rw [Token.relocate_kind]
  split
  · rfl
  · rfl
  · exact stepValue_relocate f _ _ _ _

private theorem Focus.step_relocate (focus : Focus) (t : Token) (next : Position) :
    focus.step (t.relocate f) (f next) = (focus.step t next).relocate f := by
  cases focus with
  | idle => exact stepIdle_relocate f t next
  | operand ctx => exact stepOperand_relocate f ctx t next
  | named ctx name => exact stepNamed_relocate f ctx name t next
  | value ctx e => exact stepValue_relocate f ctx e t next

private theorem Focus.finish_relocate (focus : Focus) (stop : Position) :
    focus.finish (f stop) = (focus.finish stop).relocate f := by
  have hvalue : ∀ ctx e, finishValue ctx e (f stop) = (finishValue ctx e stop).relocate f := by
    intro ctx e
    simp [finishValue, Parsed.relocate, Diagnostic.relocate]
  cases focus with
  | idle => rfl
  | operand ctx =>
    rw [Focus.finish, Focus.finish, Parsed.relocate_append, hvalue]
    rfl
  | named ctx name => exact hvalue ctx (.var name)
  | value ctx e => exact hvalue ctx e

theorem nextPosition_relocate (ts : List Token) (stop : Position) :
    nextPosition (ts.map (.relocate f)) (f stop) = f (nextPosition ts stop) := by
  cases ts <;> rfl

/-- The parser takes positions as they are: where a line stands decides nothing. -/
theorem Focus.run_relocate (focus : Focus) (stop : Position) (ts : List Token) :
    focus.run (f stop) (ts.map (.relocate f)) = (focus.run stop ts).relocate f := by
  induction ts generalizing focus with
  | nil => exact focus.finish_relocate f stop
  | cons t ts ih =>
    rw [List.map_cons, Focus.run, Focus.run, nextPosition_relocate, Focus.step_relocate,
      Parsed.relocate_append, ← ih]
    rfl

/-- A line is parsed the same wherever it stands. -/
theorem Line.parse_relocate (l : Line) : (l.relocate f).parse = l.parse.relocate f :=
  Focus.idle.run_relocate f l.stop l.tokens

/-- A list of tokens with an end, cut into lines somewhere else. -/
theorem splitLines_relocate {ts : List Token} (hend : ∃ t ∈ ts, t.kind = .endOfScript) :
    splitLines (ts.map (.relocate f)) =
      ((splitLines ts).1.relocate f, (splitLines ts).2.map (.relocate f)) := by
  induction ts with
  | nil => simp at hend
  | cons t ts ih =>
    rw [List.map_cons, splitLines, splitLines, Token.relocate_kind]
    cases hkind : t.kind with
    | endOfScript => rfl
    | _ =>
      have hrest : ∃ t ∈ ts, t.kind = .endOfScript := by simpa [hkind] using hend
      rw [ih hrest]
      rfl

private theorem parseLines_relocate (ls : List Line) :
    parseLines (ls.map (.relocate f)) = (parseLines ls).relocate f := by
  induction ls with
  | nil => rfl
  | cons l ls ih =>
    rw [List.map_cons, parseLines, parseLines, ih, Line.parse_relocate, Parsed.relocate_append]

/-- Moving all tokens of a script moves all its diagnostics with them. -/
theorem parse_relocate {ts : List Token} (hend : ∃ t ∈ ts, t.kind = .endOfScript) :
    parse (ts.map (.relocate f)) = (parse ts).relocate f := by
  unfold parse lines
  rw [splitLines_relocate f hend]
  exact parseLines_relocate f (lines ts)

end Relocate

/-! ### Separators -/

theorem Parsed.append_assoc (a b c : Parsed) : a ++ b ++ c = a ++ (b ++ c) := by
  change Parsed.append (Parsed.append a b) c = Parsed.append a (Parsed.append b c)
  simp [Parsed.append]

theorem Parsed.append_empty (a : Parsed) : a ++ {} = a := by
  change Parsed.append a {} = a
  rw [Parsed.append, List.append_nil, List.append_nil]

private theorem parseLines_append (ls ms : List Line) :
    parseLines (ls ++ ms) = parseLines ls ++ parseLines ms := by
  induction ls with
  | nil => rfl
  | cons l ls ih => rw [List.cons_append, parseLines, parseLines, ih, Parsed.append_assoc]

section Separator

variable {ts₁ : List Token} {separator stop : Token}
  (hts : ∀ t ∈ ts₁, t.kind ≠ .endOfScript) (hseparator : separator.kind = .separator)
  (hstop : stop.kind = .endOfScript) (hposition : stop.position = separator.position)

include hts hseparator hstop hposition

/-- A separator ends a line like the end of the script does. -/
theorem lines_append_separator (ts₂ : List Token) :
    lines (ts₁ ++ separator :: ts₂) = lines (ts₁ ++ [stop]) ++ lines ts₂ := by
  -- the first line is kept apart from the others, since the first line of `ts₁` may be empty
  have hsplit : splitLines (ts₁ ++ separator :: ts₂) =
      ((splitLines (ts₁ ++ [stop])).1, (splitLines (ts₁ ++ [stop])).2 ++ lines ts₂) := by
    induction ts₁ with
    | nil => simp [splitLines, hseparator, hstop, hposition, lines]
    | cons t ts ih =>
      have ih := ih fun t ht => hts t (List.mem_cons_of_mem _ ht)
      rw [List.cons_append, List.cons_append, splitLines, splitLines]
      cases hkind : t.kind with
      | endOfScript => exact absurd hkind (hts t List.mem_cons_self)
      | separator => rw [ih]; rfl
      | _ => rw [ih]
  unfold lines at hsplit ⊢
  rw [hsplit, List.cons_append]

/-- **A separator parts what is parsed.** -/
theorem parse_append_separator (ts₂ : List Token) :
    parse (ts₁ ++ separator :: ts₂) = parse (ts₁ ++ [stop]) ++ parse ts₂ := by
  unfold parse
  rw [lines_append_separator hts hseparator hstop hposition, parseLines_append]

end Separator

/-! ### Positions in joined texts -/

/-- How many lines further down a text starts behind `s` and a line break. -/
def linesThrough (s : String) : Nat := s.toList.count '\n' + 1

namespace Position

private theorem after_below (p : Position) (k : Nat) (c : Char) :
    (p.below k).after c = (p.after c).below k := by
  unfold after below
  split
  · rw [Nat.add_right_comm]
  · rfl

private theorem advance_below (p : Position) (k : Nat) (cs : List Char) :
    (p.below k).advance cs = (p.advance cs).below k := by
  unfold advance
  induction cs generalizing p with
  | nil => rfl
  | cons c cs ih => rw [List.foldl_cons, List.foldl_cons, after_below, ih]

/-- Behind two texts is behind the second one from where the first one ends. -/
theorem advance_append (p : Position) (cs ds : List Char) :
    p.advance (cs ++ ds) = (p.advance cs).advance ds := List.foldl_append

/-- A text reaches down as many lines as it has line feeds. -/
private theorem line_advance (p : Position) (cs : List Char) :
    (p.advance cs).line = p.line + cs.count '\n' := by
  unfold advance
  induction cs generalizing p with
  | nil => rfl
  | cons c cs ih =>
    rw [List.foldl_cons, ih, List.count_cons, after]
    by_cases hc : c = '\n'
    · simp only [hc, if_true, beq_self_eq_true]
      omega
    · simp [hc]

/-- Behind a text and a line break the columns start anew. -/
private theorem advance_newline (s : String) :
    start.advance (s.toList ++ ['\n']) = start.below (linesThrough s) := by
  rw [advance_append]
  change Position.mk ((start.advance s.toList).line + 1) 1 = _
  rw [line_advance, Nat.add_assoc]
  rfl

end Position

private theorem place_append (p : Position) (as bs : List Piece) :
    place p (as ++ bs) = place p as ++ place (p.advance (as.flatMap Piece.text)) bs := by
  induction as generalizing p with
  | nil => rfl
  | cons a as ih =>
    rw [List.cons_append, place, place, ih, List.flatMap_cons, Position.advance_append]
    rfl

theorem map_snd_place (p : Position) (as : List Piece) : (place p as).map Prod.snd = as := by
  induction as generalizing p with
  | nil => rfl
  | cons a as ih => rw [place, List.map_cons, ih]

theorem mem_of_mem_place {p q : Position} {piece : Piece} {as : List Piece}
    (h : (q, piece) ∈ place p as) : piece ∈ as := by
  rw [← map_snd_place p as]
  exact List.mem_map_of_mem h

private theorem place_below (p : Position) (k : Nat) (as : List Piece) :
    place (p.below k) as = (place p as).map fun (q, piece) => (q.below k, piece) := by
  induction as generalizing p with
  | nil => rfl
  | cons a as ih => rw [place, place, Position.advance_below, ih, List.map_cons]

/-! ### Joined texts -/

/-- The tokens of placed pieces. -/
def tokensOf (placed : List (Position × Piece)) : List Token :=
  placed.filterMap fun (p, piece) => piece.token? p

/-- What is wrong with placed pieces. -/
def strayOf (placed : List (Position × Piece)) : List Diagnostic :=
  placed.filterMap fun (p, piece) => piece.issue?.map (⟨·, p⟩)

/-- The token that ends a script. -/
def endToken (p : Position) : Token := ⟨.endOfScript, "", p⟩

/-- The tokens of a script are those of its pieces and one for its end; the stray pieces are
reported. -/
theorem tokenize_eq (s : String) :
    tokenize s = ⟨tokensOf (place .start (pieces s.toList)) ++
      [endToken (Position.start.advance s.toList)], strayOf (place .start (pieces s.toList))⟩ :=
  rfl

/-- The tokens of a script have an end. -/
theorem exists_end_mem (s : String) : ∃ t ∈ (tokenize s).tokens, t.kind = .endOfScript :=
  ⟨_, List.mem_append_right _ List.mem_cons_self, rfl⟩

private theorem tokensOf_below (placed : List (Position × Piece)) (k : Nat) :
    tokensOf (placed.map fun (q, piece) => (q.below k, piece)) =
      (tokensOf placed).map (.relocate (·.below k)) := by
  unfold tokensOf
  rw [List.filterMap_map, List.map_filterMap]
  congr 1
  funext placed
  obtain ⟨q, piece⟩ := placed
  cases piece <;> rfl

private theorem strayOf_below (placed : List (Position × Piece)) (k : Nat) :
    strayOf (placed.map fun (q, piece) => (q.below k, piece)) =
      (strayOf placed).map (.relocate (·.below k)) := by
  unfold strayOf
  rw [List.filterMap_map, List.map_filterMap]
  congr 1
  funext placed
  simp only [Function.comp, Option.map_map]
  rfl

/-- No piece of a script is its end. -/
private theorem kind_ne_of_mem_tokensOf {p : Position} {cs : List Char} {t : Token}
    (ht : t ∈ tokensOf (place p (pieces cs))) : t.kind ≠ .endOfScript := by
  obtain ⟨⟨q, piece⟩, hplaced, htoken⟩ := List.mem_filterMap.mp ht
  have hpiece := mem_of_mem_place hplaced
  cases piece with
  | blank c => cases htoken
  | stray c => cases htoken
  | lexeme kind text =>
    cases htoken
    rintro rfl
    exact pieces_kind_ne hpiece text rfl

private theorem pieces_newline (cs : List Char) :
    pieces ('\n' :: cs) = .lexeme .separator ['\n'] :: pieces cs := by
  have hfirst : firstPiece '\n' cs = (.lexeme .separator ['\n'], cs) := by
    simp [firstPiece, isBlank, startsNumber, isNameStart, punctuation?]
  rw [pieces, hfirst]

section Joined

variable (s₁ s₂ : String)

/-- The pieces of two texts with a line break between them, each in its place. -/
private theorem place_append_newline :
    place .start (pieces (s₁ ++ "\n" ++ s₂).toList) =
      place .start (pieces s₁.toList) ++
        (Position.start.advance s₁.toList, .lexeme .separator ['\n']) ::
          (place .start (pieces s₂.toList)).map fun (q, piece) =>
            (q.below (linesThrough s₁), piece) := by
  have hbarrier : isBarrier '\n' = true := by decide
  have hlist : (s₁ ++ "\n" ++ s₂).toList = s₁.toList ++ '\n' :: s₂.toList := by simp
  rw [hlist, pieces_append_barrier hbarrier, place_append, text_pieces, pieces_newline, place,
    ← place_below, ← Position.advance_newline, Position.advance_append]
  rfl

/-- The tokens of the joined text: a separator takes the place of the first text's end. -/
theorem tokens_append_newline :
    (tokenize (s₁ ++ "\n" ++ s₂)).tokens =
      tokensOf (place .start (pieces s₁.toList)) ++
        ⟨.separator, "\n", Position.start.advance s₁.toList⟩ ::
          (tokenize s₂).tokens.map (.relocate (·.below (linesThrough s₁))) := by
  have hend : Position.start.advance (s₁ ++ "\n" ++ s₂).toList =
      (Position.start.advance s₂.toList).below (linesThrough s₁) := by
    rw [String.toList_append, String.toList_append, Position.advance_append,
      ← Position.advance_below, ← Position.advance_newline]
    rfl
  rw [tokenize_eq, tokenize_eq, place_append_newline, hend, List.map_append, ← tokensOf_below]
  simp [tokensOf, Piece.token?, Piece.isMalformedNumber, endToken, Token.relocate]

private theorem lexDiagnostics_append_newline :
    (tokenize (s₁ ++ "\n" ++ s₂)).diagnostics =
      (tokenize s₁).diagnostics ++
        (tokenize s₂).diagnostics.map (.relocate (·.below (linesThrough s₁))) := by
  rw [tokenize_eq, tokenize_eq, tokenize_eq, place_append_newline, ← strayOf_below]
  simp [strayOf, Piece.issue?, Piece.isMalformedNumber]

/-- The joined text is parsed as the first text and then the moved second one. -/
theorem parse_tokens_append_newline :
    parse (tokenize (s₁ ++ "\n" ++ s₂)).tokens =
      parse (tokenize s₁).tokens ++
        (parse (tokenize s₂).tokens).relocate (·.below (linesThrough s₁)) := by
  let p := Position.start.advance s₁.toList
  have hseparator : (Token.mk .separator "\n" p).kind = .separator := rfl
  have hstop : (endToken p).kind = .endOfScript := rfl
  rw [tokens_append_newline, parse_append_separator (fun t ht => kind_ne_of_mem_tokensOf ht)
    hseparator hstop rfl, parse_relocate _ (exists_end_mem s₂)]
  rfl

/-- The statements of the joined text are those of the two texts. -/
theorem statements_append_newline :
    (compile (s₁ ++ "\n" ++ s₂)).program.statements =
      (compile s₁).program.statements ++ (compile s₂).program.statements := by
  rw [statements_compile, statements_compile, statements_compile, parse_tokens_append_newline]
  rfl

end Joined

/-- **A line break parts a script.** Of two texts with a line break between them, each keeps its
statements and its diagnostics, whatever is wrong with either; only the lines of the second
text's diagnostics count on from the first. So the joined program does what the two programs do
one after the other. -/
theorem compile_append_newline (s₁ s₂ : String) :
    (compile (s₁ ++ "\n" ++ s₂)).program.statements =
        (compile s₁).program.statements ++ (compile s₂).program.statements ∧
      (compile (s₁ ++ "\n" ++ s₂)).diagnostics =
        (tokenize s₁).diagnostics ++
            (tokenize s₂).diagnostics.map (.relocate (·.below (linesThrough s₁))) ++
          ((parse (tokenize s₁).tokens).diagnostics ++
            (parse (tokenize s₂).tokens).diagnostics.map
              (.relocate (·.below (linesThrough s₁)))) ∧
      ∀ env, (compile (s₁ ++ "\n" ++ s₂)).program.run env =
        (compile s₂).program.run ((compile s₁).program.run env) := by
  refine ⟨statements_append_newline s₁ s₂, ?_, fun env => ?_⟩
  · change (tokenize _).diagnostics ++ (parse (tokenize _).tokens).diagnostics = _
    rw [lexDiagnostics_append_newline, parse_tokens_append_newline]
    rfl
  · rw [Program.run, statements_append_newline]
    exact List.foldl_append

end PointScope.Script
