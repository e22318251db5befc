import PointScope.Proofs.Script.Grammar
import PointScope.Proofs.Text.Letters

/-!
# Texts and their tokens

`Lexes cs ts` says that nothing is wrong with the characters `cs` and that they read as the tokens
`ts`, wherever they stand. Texts that read as tokens are put together piece by piece: a barrier
keeps what is before it apart from what follows, and a name, a numeral or an operator that ends at
a barrier is one token.

A text whose tokens form a phrase of the grammar compiles to the one statement that the phrase
means, and its only diagnostics are those of the calls in the phrase (`Lexes.compile_expression`,
`Lexes.compile_assignment`).
-/

namespace PointScope.Script

/-- A token of which only the kind and the text matter. -/
def word (kind : TokenKind) (text : String) : Token := ⟨kind, text, .start⟩

/-- The characters read as the tokens, and nothing is wrong with them. -/
structure Lexes (cs : List Char) (ts : List Token) : Prop where
  tokens : (pieces cs).filterMap (Piece.token? .start) = ts
  issues : (pieces cs).filterMap Piece.issue? = []

/-! ### Names and numerals -/

/-- The characters of a name: a first one, and others that go on with it. -/
def IsName (cs : List Char) : Prop :=
  ∃ c rest, cs = c :: rest ∧ isNameStart c = true ∧ rest.all isNamePart = true

/-- A name as programs keep it, without capital letters. -/
structure IsIdentifier (name : String) : Prop where
  isName : IsName name.toList
  folded : Text.fold name = name

/-- The characters of a numeral: digits with at most one point, and a digit at the start or behind
a point there. -/
def IsNumeral (cs : List Char) : Prop :=
  ∃ c rest, cs = c :: rest ∧ startsNumber c rest = true ∧ rest.all isNumberPart = true ∧
    cs.count '.' ≤ 1

/-- No blank goes on with a name or a number. -/
theorem isBlank_eq_false {c : Char} (h : isNamePart c = true ∨ isNumberPart c = true) :
    isBlank c = false := by
  have hcode : 33 ≤ c.toNat ∧ c.toNat ≤ 122 := by
    simp only [isNamePart, isNumberPart, Char.isAlphanum, Bool.or_eq_true, Text.isAlpha_iff,
      Char.isDigit_iff_toNat, Char.reduceToNat, beq_iff_eq] at h
    rcases h with (((h | h) | rfl) | rfl) | (h | rfl)
    · omega
    · omega
    · decide
    · decide
    · omega
    · decide
  rw [isBlank, Text.isWhiteSpace_eq_false hcode, Bool.false_and, Bool.false_and]

theorem isNamePart_of_isNameStart {c : Char} (h : isNameStart c = true) : isNamePart c = true := by
  simp only [isNameStart, isNamePart, Char.isAlphanum, Bool.or_eq_true] at h ⊢
  exact h.imp_left (.imp_left .inl)

/-- A character that a number starts with is part of one. -/
theorem isNumberPart_of_startsNumber {c : Char} {rest : List Char}
    (h : startsNumber c rest = true) : isNumberPart c = true := by
  rw [startsNumber, Bool.or_eq_true, Bool.and_eq_true] at h
  rw [isNumberPart, Bool.or_eq_true]
  exact h.imp_right And.left

/-- No name starts with a character of a number. -/
theorem isNumberPart_eq_false {c : Char} (h : isNameStart c = true) : isNumberPart c = false := by
  rw [Bool.eq_false_iff]
  simp only [isNameStart, isNumberPart, Bool.or_eq_true, Text.isAlpha_iff,
    Char.isDigit_iff_toNat, Char.reduceToNat, beq_iff_eq, Ne] at h ⊢
  rintro (hdigit | rfl)
  · rcases h with (h | rfl) | rfl
    · omega
    · exact absurd hdigit (by decide)
    · exact absurd hdigit (by decide)
  · exact absurd h (by decide)

theorem startsNumber_eq_false {c : Char} (h : isNameStart c = true) (rest : List Char) :
    startsNumber c rest = false :=
  Bool.eq_false_iff.mpr fun hstart =>
    Bool.eq_false_iff.mp (isNumberPart_eq_false h) (isNumberPart_of_startsNumber hstart)

/-! ### Putting texts together -/

namespace Lexes

theorem nil : Lexes [] [] := by
  constructor <;> rw [pieces] <;> rfl

/-- A text whose first piece is in order. -/
theorem cons {c : Char} {cs rest : List Char} {piece : Piece} {ts : List Token}
    (hfirst : firstPiece c cs = (piece, rest)) (hissue : piece.issue? = none)
    (hrest : Lexes rest ts) : Lexes (c :: cs) ((piece.token? .start).toList ++ ts) := by
  constructor
  · rw [pieces, hfirst, List.filterMap_cons, hrest.tokens]
    cases piece.token? .start <;> rfl
  · rw [pieces, hfirst, List.filterMap_cons, hissue, hrest.issues]

/-- What stands before a barrier is read by itself. -/
theorem append {b : Char} (hb : isBarrier b = true) {cs ds : List Char} {ts us : List Token}
    (hcs : Lexes cs ts) (hds : Lexes (b :: ds) us) : Lexes (cs ++ b :: ds) (ts ++ us) := by
  constructor
  · rw [pieces_append_barrier hb, List.filterMap_append, hcs.tokens, hds.tokens]
  · rw [pieces_append_barrier hb, List.filterMap_append, hcs.issues, hds.issues]
    rfl

/-- Blanks before a text do not matter. -/
theorem blank {c : Char} (hc : isBlank c = true) {cs : List Char} {ts : List Token}
    (hcs : Lexes cs ts) : Lexes (c :: cs) ts := by
  have hfirst : firstPiece c cs = (.blank c, cs) := by rw [firstPiece, if_pos hc]
  exact hcs.cons hfirst rfl

theorem leftParen {cs : List Char} {ts : List Token} (hcs : Lexes cs ts) :
    Lexes ('(' :: cs) (word .leftParen "(" :: ts) := hcs.cons rfl rfl

theorem rightParen {cs : List Char} {ts : List Token} (hcs : Lexes cs ts) :
    Lexes (')' :: cs) (word .rightParen ")" :: ts) := hcs.cons rfl rfl

theorem comma {cs : List Char} {ts : List Token} (hcs : Lexes cs ts) :
    Lexes (',' :: cs) (word .comma "," :: ts) := hcs.cons rfl rfl

/-- An operator before its operand; only `!` could be read together with what follows it. -/
theorem unary {op : Operator} {u : UnaryOp} (hop : op.unary? = some u) {cs : List Char}
    {ts : List Token} (hcs : Lexes cs ts) (hhead : cs.head? ≠ some '=') :
    Lexes (u.symbol.toList ++ cs) (word (.operator op) u.symbol :: ts) := by
  cases op with
  | plus => cases hop; exact hcs.cons rfl rfl
  | minus => cases hop; exact hcs.cons rfl rfl
  | not =>
    cases hop
    cases cs with
    | nil => exact hcs.cons rfl rfl
    | cons c cs =>
      -- a `!` in front of `=` would be read as `!=`
      have hc : ¬ c = '=' := fun h => hhead (congrArg some h)
      have hwhite : Text.isWhiteSpace '!' = false := by decide
      have hfirst : firstPiece '!' (c :: cs) = (.lexeme (.operator .not) ['!'], c :: cs) := by
        simp [firstPiece, isBlank, hwhite, startsNumber, isNameStart, punctuation?, operatorAt?,
          Operator.all, Operator.symbol, List.isPrefixOf, Ne.symm hc]
      exact hcs.cons hfirst rfl
  | _ => cases hop

/-- An operator by itself. -/
theorem operator (op : Operator) : Lexes op.symbol.toList [word (.operator op) op.symbol] := by
  have hfirst : ∃ c cs, op.symbol.toList = c :: cs ∧
      firstPiece c cs = (.lexeme (.operator op) (c :: cs), []) := by
    cases op <;> exact ⟨_, _, rfl, by decide +kernel⟩
  obtain ⟨c, cs, hsymbol, hfirst⟩ := hfirst
  have hlexes := nil.cons hfirst (by simp [Piece.issue?, Piece.isMalformedNumber])
  rw [hsymbol]
  convert hlexes using 1
  rw [← String.ofList_toList (s := op.symbol), hsymbol]
  rfl

/-- A name by itself. -/
theorem name {cs : List Char} (h : IsName cs) : Lexes cs [word .name (String.ofList cs)] := by
  obtain ⟨c, rest, rfl, hc, hrest⟩ := h
  have hblank := isBlank_eq_false (.inl (isNamePart_of_isNameStart hc))
  have hfirst : firstPiece c rest = (.lexeme .name (c :: rest), []) := by
    rw [List.all_eq_true] at hrest
    simp only [firstPiece, hblank, startsNumber_eq_false hc, hc, Bool.false_eq_true, if_false,
      if_true, List.takeWhile_eq_self_iff.mpr hrest, List.dropWhile_eq_nil_iff.mpr hrest]
  exact nil.cons hfirst rfl

/-- A numeral by itself. -/
theorem number {cs : List Char} (h : IsNumeral cs) :
    Lexes cs [word .number (String.ofList cs)] := by
  obtain ⟨c, rest, rfl, hc, hrest, hcount⟩ := h
  have hblank := isBlank_eq_false (.inr (isNumberPart_of_startsNumber hc))
  have hfirst : firstPiece c rest = (.lexeme .number (c :: rest), []) := by
    rw [List.all_eq_true] at hrest
    simp only [firstPiece, hblank, hc, Bool.false_eq_true, if_false, if_true,
      List.takeWhile_eq_self_iff.mpr hrest, List.dropWhile_eq_nil_iff.mpr hrest]
  have hformed : Piece.isMalformedNumber (.lexeme .number (c :: rest)) = false :=
    decide_eq_false (Nat.not_lt.mpr hcount)
  have hlexes := nil.cons hfirst (by simp only [Piece.issue?, hformed]; rfl)
  simp only [Piece.token?, hformed] at hlexes
  exact hlexes

end Lexes

/-! ### Tokens with blanks between them -/

/-- The texts of the tokens in order, with at least one blank between any two of them, and blanks
before and behind them as well. -/
inductive Spaced : List Token → List Char → Prop
  | nil : Spaced [] []
  | blank {c : Char} {ts : List Token} {cs : List Char} (hc : isBlank c = true)
      (hcs : Spaced ts cs) : Spaced ts (c :: cs)
  | last (t : Token) : Spaced [t] t.text.toList
  | cons (t : Token) {c : Char} {ts : List Token} {cs : List Char} (hc : isBlank c = true)
      (hcs : Spaced ts cs) : Spaced (t :: ts) (t.text.toList ++ c :: cs)

/-- One blank between any two tokens is enough. -/
theorem spaced_intercalate (ts : List Token) :
    Spaced ts ([' '].intercalate (ts.map (·.text.toList))) := by
  match ts with
  | [] => exact .nil
  | [t] =>
    have hlast := Spaced.last t
    simpa [List.intercalate] using hlast
  | t :: u :: us =>
    have hcons := Spaced.cons t (c := ' ') (by decide) (spaced_intercalate (u :: us))
    simpa [List.intercalate] using hcons

theorem isBarrier_of_isBlank {c : Char} (hc : isBlank c = true) : isBarrier c = true := by
  have hpart : ¬(isNamePart c = true ∨ isNumberPart c = true) := by
    intro h
    exact Bool.false_ne_true ((isBlank_eq_false h).symm.trans hc)
  obtain ⟨hname, hnumber⟩ := not_or.mp hpart
  have hother : c ≠ '=' ∧ c ≠ '&' ∧ c ≠ '|' := by
    refine ⟨?_, ?_, ?_⟩ <;> rintro rfl <;> exact absurd hc (by decide)
  simp [isBarrier, hname, hnumber, hother]

/-- Tokens that are read from their own texts are read from these texts with blanks between
them. -/
theorem Spaced.lexes {ts : List Token} {cs : List Char} (h : Spaced ts cs)
    (hts : ∀ t ∈ ts, Lexes t.text.toList [t]) : Lexes cs ts := by
  induction h with
  | nil => exact .nil
  | blank hc _ ih => exact .blank hc (ih hts)
  | last t => exact hts t List.mem_cons_self
  | cons t hc _ ih =>
    obtain ⟨ht, hts⟩ := List.forall_mem_cons.mp hts
    exact ht.append (isBarrier_of_isBlank hc) (.blank hc (ih hts))

/-! ### Compiling a line -/

/-- A token that belongs to a line. -/
def Token.InLine (t : Token) : Prop := t.kind ≠ .separator ∧ t.kind ≠ .endOfScript

/-- Tokens without a separator are one line. -/
theorem lines_append_end {ts : List Token} (hts : ∀ t ∈ ts, t.InLine) (p : Position) :
    lines (ts ++ [endToken p]) = [⟨ts, p⟩] := by
  have hsplit : splitLines (ts ++ [endToken p]) = (⟨ts, p⟩, []) := by
    induction ts with
    | nil => rfl
    | cons t ts ih =>
      obtain ⟨⟨hseparator, hend⟩, hts⟩ := List.forall_mem_cons.mp hts
      rw [List.cons_append, splitLines, ih hts]
      split
      · exact absurd ‹_› hend
      · exact absurd ‹_› hseparator
      · rfl
  rw [lines, hsplit]

theorem tokensOf_place (p : Position) (as : List Piece) :
    (tokensOf (place p as)).map (.relocate fun _ => .start) =
      as.filterMap (Piece.token? .start) := by
  rw [tokensOf, List.map_filterMap]
  conv => rhs; rw [← map_snd_place p as, List.filterMap_map]
  congr 1
  funext placed
  obtain ⟨q, piece⟩ := placed
  cases piece <;> rfl

theorem strayOf_place (p : Position) (as : List Piece) :
    (strayOf (place p as)).map (·.issue) = as.filterMap Piece.issue? := by
  rw [strayOf, List.map_filterMap]
  conv => rhs; rw [← map_snd_place p as, List.filterMap_map]
  congr 1
  funext placed
  simp only [Option.map_map, Function.comp]
  exact Option.map_id'

section Compile

variable {s : String} {ts : List Token}

/-- A text that reads as the tokens of one line is parsed as that line. -/
theorem Lexes.compile_line (h : Lexes s.toList ts) (hts : ∀ t ∈ ts, t.InLine) :
    (compile s).program.statements = (Line.mk ts .start).parse.statements ∧
      (compile s).diagnostics.map (·.issue) =
        (Line.mk ts .start).parse.diagnostics.map (·.issue) := by
  have htokens : (tokenize s).tokens.map (.relocate fun _ => .start) =
      ts ++ [endToken .start] := by
    rw [tokenize_eq, List.map_append, tokensOf_place, h.tokens]
    rfl
  have hstray : (tokenize s).diagnostics.map (·.issue) = [] := by
    rw [tokenize_eq, strayOf_place, h.issues]
  -- with all positions the same, the tokens are those of the one line
  have hparse : (parse (tokenize s).tokens).relocate (fun _ => .start) =
      (Line.mk ts .start).parse := by
    rw [← parse_relocate _ (exists_end_mem s), htokens, parse, lines_append_end hts]
    exact Parsed.append_empty _
  rw [← hparse, statements_compile]
  constructor
  · rfl
  · change ((tokenize s).diagnostics ++ (parse (tokenize s).tokens).diagnostics).map _ =
      ((parse (tokenize s).tokens).diagnostics.map _).map _
    rw [List.map_append, hstray, List.nil_append, List.map_map]
    rfl

end Compile

section Phrase

mutual

/-- A phrase does not reach across the end of a line. -/
theorem Operand.inLine {ts : List Token} {x : Checked} (hx : Operand ts x) :
    ∀ t ∈ ts, t.InLine := by
  -- no form of an operand has a separator or an end in it
  match hx with
  | .number ht => exact List.forall_mem_singleton.mpr (by simp [Token.InLine, ht])
  | .variable ht => exact List.forall_mem_singleton.mpr (by simp [Token.InLine, ht])
  | .unary ht _ hx => exact List.forall_mem_cons.mpr ⟨by simp [Token.InLine, ht], hx.inLine⟩
  | .group hl hx hr =>
    refine List.forall_mem_cons.mpr ⟨by simp [Token.InLine, hl], ?_⟩
    exact List.forall_mem_append.mpr
      ⟨hx.inLine, List.forall_mem_singleton.mpr (by simp [Token.InLine, hr])⟩
  | .callNone hf hl hr => simp [Token.InLine, hf, hl, hr]
  | .call hf hl hxs hr =>
    refine List.forall_mem_cons.mpr ⟨by simp [Token.InLine, hf], ?_⟩
    refine List.forall_mem_cons.mpr ⟨by simp [Token.InLine, hl], ?_⟩
    exact List.forall_mem_append.mpr
      ⟨hxs.inLine, List.forall_mem_singleton.mpr (by simp [Token.InLine, hr])⟩

@[inherit_doc Operand.inLine]
theorem Expression.inLine {p : Nat} {ts : List Token} {x : Checked} (hx : Expression p ts x) :
    ∀ t ∈ ts, t.InLine := by
  match hx with
  | .operand hx => exact hx.inLine
  | .binary ht _ _ hx hy =>
    exact List.forall_mem_append.mpr
      ⟨hx.inLine, List.forall_mem_cons.mpr ⟨by simp [Token.InLine, ht], hy.inLine⟩⟩

@[inherit_doc Operand.inLine]
theorem Arguments.inLine {ts : List Token} {xs : List Expr × List Issue}
    (hxs : Arguments ts xs) : ∀ t ∈ ts, t.InLine := by
  match hxs with
  | .one hx => exact hx.inLine
  | .more hx ht hxs =>
    exact List.forall_mem_append.mpr
      ⟨hx.inLine, List.forall_mem_cons.mpr ⟨by simp [Token.InLine, ht], hxs.inLine⟩⟩

end

/-- What is reported changes no statement. -/
theorem Reports.statements {is : List Issue} {a b : Parsed} (h : Reports is a b) :
    a.statements = b.statements := by
  obtain ⟨ds, -, rfl⟩ := h
  rfl

/-- What is reported comes before what is wrong later. -/
theorem Reports.issues {is : List Issue} {a b : Parsed} (h : Reports is a b) :
    a.diagnostics.map (·.issue) = is ++ b.diagnostics.map (·.issue) := by
  obtain ⟨ds, rfl, rfl⟩ := h
  exact List.map_append

variable {s : String} {ts : List Token} {x : Checked}

/-- **A text that reads as an expression** compiles to the statement that the expression is. -/
theorem Lexes.compile_expression (h : Lexes s.toList ts) (hx : Expression 0 ts x) :
    (compile s).program.statements = [.expr x.1] ∧
      (compile s).diagnostics.map (·.issue) = x.2 := by
  obtain ⟨hstatements, hissues⟩ := h.compile_line hx.inLine
  have hline : Reports x.2 (Line.mk ts .start).parse _ := hx.parse_line
  exact ⟨hstatements.trans hline.statements, hissues.trans (hline.issues.trans (List.append_nil _))⟩

/-- **A text that reads as a name, `=` and an expression** compiles to the assignment of the
expression to the name. -/
theorem Lexes.compile_assignment {f t : Token} (h : Lexes s.toList (f :: t :: ts))
    (hf : f.kind = .name) (ht : t.kind = .assign) (hx : Expression 0 ts x) :
    (compile s).program.statements = [.assign (Text.fold f.text) x.1] ∧
      (compile s).diagnostics.map (·.issue) = x.2 := by
  have hin : ∀ u ∈ f :: t :: ts, u.InLine := by
    refine List.forall_mem_cons.mpr ⟨by simp [Token.InLine, hf], ?_⟩
    exact List.forall_mem_cons.mpr ⟨by simp [Token.InLine, ht], hx.inLine⟩
  obtain ⟨hstatements, hissues⟩ := h.compile_line hin
  have hline : Reports x.2 (Line.mk (f :: t :: ts) .start).parse _ := hx.parse_assignment hf ht
  exact ⟨hstatements.trans hline.statements, hissues.trans (hline.issues.trans (List.append_nil _))⟩

end Phrase

end PointScope.Script
