import PointScope.Proofs.Numeric.ReadBack
import PointScope.Proofs.Script.Words

/-!
# The longest lexeme first

Which texts are lexemes can be said without looking at what stands around them (`IsLexeme`). A
script is cut into blanks, stray characters and lexemes, where each lexeme is the longest that
starts in its place, and a character is stray only if no lexeme starts there (`Munches`). There is
exactly one such cut, and `pieces` finds it (`munches_iff`): what `firstPiece` splits off is a
lexeme, and no lexeme in its place is longer (`firstPiece_longest`).

The tokens of a script are its lexemes in order, and then its end (`tokenize_munches`). A run of
digits and points that is not the text of a number is read as `0`; that is the case exactly if it
has more than one point (`readDouble?_run`).
-/

namespace PointScope.Script

/-! ### Lexemes -/

/-- The texts that are lexemes, with the kinds of their tokens. -/
inductive IsLexeme : TokenKind → List Char → Prop
  | number {c : Char} {cs : List Char} (hc : startsNumber c cs = true)
      (hcs : ∀ d ∈ cs, isNumberPart d = true) : IsLexeme .number (c :: cs)
  | name {c : Char} {cs : List Char} (hc : isNameStart c = true)
      (hcs : ∀ d ∈ cs, isNamePart d = true) : IsLexeme .name (c :: cs)
  | operator (op : Operator) : IsLexeme (.operator op) op.symbol.toList
  | assign : IsLexeme .assign ['=']
  | leftParen : IsLexeme .leftParen ['(']
  | rightParen : IsLexeme .rightParen [')']
  | comma : IsLexeme .comma [',']
  | separator {c : Char} (hc : c = ';' ∨ c = '\n' ∨ c = '\r') : IsLexeme .separator [c]

/-- The text is cut into the pieces: blanks, lexemes of which each is the longest one that starts
in its place, and characters where no lexeme starts. -/
inductive Munches : List Char → List Piece → Prop
  | nil : Munches [] []
  | blank {c : Char} {cs : List Char} {ps : List Piece} (hc : isBlank c = true)
      (h : Munches cs ps) : Munches (c :: cs) (.blank c :: ps)
  | lexeme {kind : TokenKind} {text rest : List Char} {ps : List Piece}
      (htext : IsLexeme kind text)
      (hlongest : ∀ kind' text', IsLexeme kind' text' → text' <+: text ++ rest →
        text'.length ≤ text.length)
      (h : Munches rest ps) : Munches (text ++ rest) (.lexeme kind text :: ps)
  | stray {c : Char} {cs : List Char} {ps : List Piece} (hc : isBlank c = false)
      (hnone : ∀ kind text, IsLexeme kind text → ¬text <+: c :: cs)
      (h : Munches cs ps) : Munches (c :: cs) (.stray c :: ps)

/-- Every lexeme has a character. -/
theorem IsLexeme.ne_nil {kind : TokenKind} {text : List Char} (h : IsLexeme kind text) :
    text ≠ [] := by
  cases h with
  | operator op => exact symbol_ne_nil op
  | _ => exact List.cons_ne_nil _ _

/-- No script ends in the middle: its end is no lexeme. -/
theorem IsLexeme.kind_ne {kind : TokenKind} {text : List Char} (h : IsLexeme kind text) :
    kind ≠ .endOfScript := by
  cases h <;> exact TokenKind.noConfusion

/-! ### Operators -/

/-- A text that starts with an operator starts with no blank, no number, no name and no
punctuation. -/
private theorem not_word_of_symbol_prefix {op : Operator} {c : Char} {cs : List Char}
    (h : op.symbol.toList <+: c :: cs) :
    isBlank c = false ∧ startsNumber c cs = false ∧ isNameStart c = false ∧
      punctuation? c cs = none := by
  have hnumber : ∀ {c : Char}, isNumberPart c = false → startsNumber c cs = false := by
    intro c hc
    rw [Bool.eq_false_iff] at hc ⊢
    exact mt isNumberPart_of_startsNumber hc
  cases op with
  | equal =>
    -- of all operators only this one starts with a sign that is punctuation by itself
    obtain ⟨rfl, rest, rfl⟩ := List.cons_prefix_cons.mp h
    exact ⟨by decide, rfl, by decide, rfl⟩
  | _ =>
    obtain ⟨rfl, -⟩ := List.cons_prefix_cons.mp h
    exact ⟨by decide, hnumber (by decide), by decide, rfl⟩

/-- The operator that a text starts with, from its first character on. -/
private theorem cons_tail_symbol {op : Operator} {c : Char} {cs : List Char}
    (hop : operatorAt? (c :: cs) = some op) :
    c :: op.symbol.toList.tail = op.symbol.toList := by
  have hprefix := symbol_prefix_of_operatorAt? hop
  have hne := symbol_ne_nil op
  generalize op.symbol.toList = w at hprefix hne ⊢
  cases w with
  | nil => exact absurd rfl hne
  | cons a w => rw [(List.cons_prefix_cons.mp hprefix).1, List.tail_cons]

private theorem symbol_injective {op op' : Operator} (h : op.symbol.toList = op'.symbol.toList) :
    op = op' := by
  revert h
  cases op <;> cases op' <;> decide

/-- The operators of two characters come first. -/
theorem operators_pairwise :
    Operator.all.Pairwise fun op op' => op'.symbol.toList.length ≤ op.symbol.toList.length := by
  decide

/-- Where an operator stands, the one that is found is at least as long, and another one only if it
is longer. -/
theorem operatorAt?_of_prefix {op : Operator} {cs : List Char} (h : op.symbol.toList <+: cs) :
    ∃ op', operatorAt? cs = some op' ∧
      op.symbol.toList.length ≤ op'.symbol.toList.length ∧
      (op.symbol.toList.length = op'.symbol.toList.length → op = op') := by
  have hmem : op ∈ Operator.all := by cases op <;> decide
  have hop : op.symbol.toList.isPrefixOf cs = true := List.isPrefixOf_iff_prefix.mpr h
  cases hfind : operatorAt? cs with
  | none => exact absurd hop (List.find?_eq_none.mp hfind op hmem)
  | some op' =>
    have hprefix := symbol_prefix_of_operatorAt? hfind
    refine ⟨op', rfl, ?_, fun hlength => ?_⟩
    · -- the operators in front of the one that is found do not stand here
      obtain ⟨-, before, behind, hall, hbefore⟩ := List.find?_eq_some_iff_append.mp hfind
      have hpairwise := operators_pairwise
      rw [hall] at hmem hpairwise
      rcases List.mem_append.mp hmem with hmem | hmem
      · have hnot := hbefore op hmem
        rw [hop] at hnot
        cases hnot
      · rcases List.mem_cons.mp hmem with rfl | hmem
        · exact le_rfl
        · exact (List.pairwise_cons.mp (List.pairwise_append.mp hpairwise).2.1).1 op hmem
    · exact symbol_injective ((List.prefix_of_prefix_length_le h hprefix hlength.le).eq_of_length
        hlength)

/-! ### The first piece -/

/-- A run of characters of a class is no shorter than any start of the text in the class. -/
private theorem length_le_takeWhile {p : Char → Bool} {as cs : List Char}
    (has : ∀ a ∈ as, p a = true)
    (h : as <+: cs) : as.length ≤ (cs.takeWhile p).length := by
  obtain ⟨rest, rfl⟩ := h
  rw [List.takeWhile_append_of_pos has, List.length_append]
  exact Nat.le_add_right _ _

/-- A number starts with a run as it does with all that follows. -/
private theorem startsNumber_takeWhile {c : Char} {cs : List Char} (h : startsNumber c cs = true) :
    startsNumber c (cs.takeWhile isNumberPart) = true := by
  cases cs with
  | nil => exact h
  | cons d ds =>
    rw [List.takeWhile_cons]
    split
    · exact h
    · rename_i hd
      have hdigit : d.isDigit = false := by
        rw [Bool.not_eq_true, isNumberPart, Bool.or_eq_false_iff] at hd
        exact hd.1
      have hc : c.isDigit = true := by simpa [startsNumber, hdigit] using h
      rw [startsNumber, hc, Bool.true_or]

/-- A number starts with a text if it does with the start of it. -/
private theorem startsNumber_of_prefix {c : Char} {as cs : List Char} (h : startsNumber c as = true)
    (has : as <+: cs) : startsNumber c cs = true := by
  obtain ⟨rest, rfl⟩ := has
  cases as with
  | nil =>
    have hc : c.isDigit = true := by simpa [startsNumber] using h
    rw [startsNumber, hc, Bool.true_or]
  | cons d ds => exact h

private theorem isLexeme_of_punctuation? {c : Char} {cs : List Char} {kind : TokenKind}
    (h : punctuation? c cs = some kind) : IsLexeme kind [c] := by
  unfold punctuation? at h
  split at h
  · cases h; exact .leftParen
  · cases h; exact .rightParen
  · cases h; exact .comma
  · cases h; exact .separator (.inl rfl)
  · cases h; exact .separator (.inr (.inl rfl))
  · cases h; exact .separator (.inr (.inr rfl))
  · split at h
    · cases h
    · cases h; exact .assign
  · cases h

/-- The first piece of a text is a blank, a lexeme, or a stray character. -/
theorem firstPiece_cases (c : Char) (cs : List Char) :
    (isBlank c = true ∧ firstPiece c cs = (.blank c, cs)) ∨
      isBlank c = false ∧ ((∃ kind text rest, firstPiece c cs = (.lexeme kind text, rest) ∧
        IsLexeme kind text) ∨ firstPiece c cs = (.stray c, cs)) := by
  unfold firstPiece
  cases isBlank c
  case true => exact .inl ⟨rfl, rfl⟩
  refine .inr ⟨rfl, ?_⟩
  cases hnumber : startsNumber c cs
  case true =>
    refine .inl ⟨_, _, _, rfl, .number (startsNumber_takeWhile hnumber) ?_⟩
    exact fun d hd => List.mem_takeWhile_imp hd
  cases hname : isNameStart c
  case true => exact .inl ⟨_, _, _, rfl, .name hname fun d hd => List.mem_takeWhile_imp hd⟩
  cases hpunctuation : punctuation? c cs with
  | some kind => exact .inl ⟨_, _, _, rfl, isLexeme_of_punctuation? hpunctuation⟩
  | none =>
    cases hop : operatorAt? (c :: cs) with
    | none => exact .inr rfl
    | some op =>
      refine .inl ⟨_, _, _, rfl, ?_⟩
      rw [cons_tail_symbol hop]
      exact .operator op

/-- **The first piece is the longest lexeme.** If the text starts with a lexeme, its first piece is
one that is at least as long, and of the same kind unless it is longer. -/
theorem firstPiece_longest {kind : TokenKind} {text : List Char} {c : Char} {cs : List Char}
    (htext : IsLexeme kind text) (h : text <+: c :: cs) :
    ∃ kind' text', (firstPiece c cs).1 = .lexeme kind' text' ∧ text.length ≤ text'.length ∧
      (text.length = text'.length → kind = kind') := by
  cases htext with
  | @number d ds hd hds =>
    obtain ⟨rfl, hrest⟩ := List.cons_prefix_cons.mp h
    have hblank := isBlank_eq_false (.inr (isNumberPart_of_startsNumber hd))
    have hnumber := startsNumber_of_prefix hd hrest
    refine ⟨.number, _, by rw [firstPiece, hblank, hnumber]; rfl, ?_, fun _ => rfl⟩
    exact Nat.succ_le_succ (length_le_takeWhile hds hrest)
  | @name d ds hd hds =>
    obtain ⟨rfl, hrest⟩ := List.cons_prefix_cons.mp h
    have hblank := isBlank_eq_false (.inl (isNamePart_of_isNameStart hd))
    have hnumber := startsNumber_eq_false hd cs
    refine ⟨.name, _, by rw [firstPiece, hblank, hnumber, hd]; rfl, ?_, fun _ => rfl⟩
    exact Nat.succ_le_succ (length_le_takeWhile hds hrest)
  | operator op =>
    obtain ⟨op', hop, hlength, hsame⟩ := operatorAt?_of_prefix h
    obtain ⟨hblank, hnumber, hname, hpunctuation⟩ := not_word_of_symbol_prefix h
    refine ⟨.operator op', c :: op'.symbol.toList.tail, ?_, ?_, ?_⟩
    · rw [firstPiece, hblank, hnumber, hname, hpunctuation, hop]
      rfl
    · rw [cons_tail_symbol hop]
      exact hlength
    · rw [cons_tail_symbol hop]
      exact fun heq => congrArg _ (hsame heq)
  | assign =>
    obtain ⟨rfl, -⟩ := List.cons_prefix_cons.mp h
    -- a second sign makes it the longer lexeme
    cases hnext : decide (cs.head? = some '=') with
    | false =>
      refine ⟨.assign, ['='], ?_, le_rfl, fun _ => rfl⟩
      have hpunctuation : punctuation? '=' cs = some .assign :=
        if_neg (of_decide_eq_false hnext)
      have hnumber : startsNumber '=' cs = false := rfl
      rw [firstPiece, hnumber, hpunctuation]
      rfl
    | true =>
      obtain ⟨ds, rfl⟩ := List.head?_eq_some_iff.mp (of_decide_eq_true hnext)
      exact ⟨.operator .equal, _, rfl, by decide, by decide⟩
  | leftParen =>
    obtain ⟨rfl, -⟩ := List.cons_prefix_cons.mp h
    exact ⟨_, _, rfl, le_rfl, fun _ => rfl⟩
  | rightParen =>
    obtain ⟨rfl, -⟩ := List.cons_prefix_cons.mp h
    exact ⟨_, _, rfl, le_rfl, fun _ => rfl⟩
  | comma =>
    obtain ⟨rfl, -⟩ := List.cons_prefix_cons.mp h
    exact ⟨_, _, rfl, le_rfl, fun _ => rfl⟩
  | separator hc =>
    obtain ⟨rfl, -⟩ := List.cons_prefix_cons.mp h
    rcases hc with rfl | rfl | rfl <;> exact ⟨_, _, rfl, le_rfl, fun _ => rfl⟩

/-- A lexeme that is the longest in its place is the first piece. -/
theorem firstPiece_of_longest {kind : TokenKind} {text rest : List Char} {c : Char}
    {cs : List Char} (htext : IsLexeme kind text) (hcons : text ++ rest = c :: cs)
    (hlongest : ∀ kind' text', IsLexeme kind' text' → text' <+: c :: cs →
      text'.length ≤ text.length) : firstPiece c cs = (.lexeme kind text, rest) := by
  obtain ⟨kind', text', hpiece, hle, hkind⟩ := firstPiece_longest htext ⟨rest, hcons⟩
  rcases firstPiece_cases c cs with
    ⟨-, hfirst⟩ | ⟨-, ⟨kind', text', rest', hfirst, htext'⟩ | hfirst⟩
  · rw [hfirst] at hpiece
    cases hpiece
  · rw [hfirst] at hpiece
    cases hpiece
    have hcons' : text' ++ rest' = c :: cs := by
      have hsplit := text_firstPiece c cs
      rwa [hfirst] at hsplit
    -- both texts start here and neither is longer
    have hlength : text.length = text'.length :=
      le_antisymm hle (hlongest kind' text' htext' ⟨rest', hcons'⟩)
    obtain ⟨rfl, rfl⟩ := List.append_inj (hcons.trans hcons'.symm) hlength
    rw [hfirst, hkind rfl]
  · rw [hfirst] at hpiece
    cases hpiece

/-- **The longest lexeme first.** There is one way to cut a text in which each lexeme is the longest
that starts in its place. -/
theorem munches_iff {cs : List Char} {ps : List Piece} : Munches cs ps ↔ ps = pieces cs := by
  constructor
  · intro h
    induction h with
    | nil => rw [pieces]
    | @blank c cs ps hc _ ih =>
      have hfirst : firstPiece c cs = (.blank c, cs) := by rw [firstPiece, if_pos hc]
      rw [pieces, hfirst, ih]
    | @lexeme kind text rest ps htext hlongest _ ih =>
      obtain ⟨c, cs, hcons⟩ : ∃ c cs, text ++ rest = c :: cs :=
        List.exists_cons_of_ne_nil (List.append_ne_nil_of_left_ne_nil htext.ne_nil rest)
      rw [hcons] at hlongest ⊢
      rw [pieces, firstPiece_of_longest htext hcons hlongest, ih]
    | @stray c cs ps hc hnone _ ih =>
      have hsplit := text_firstPiece c cs
      rcases firstPiece_cases c cs with
        ⟨hblank, -⟩ | ⟨-, ⟨kind, text, rest, hfirst, htext⟩ | hfirst⟩
      · rw [hc] at hblank
        cases hblank
      · rw [hfirst] at hsplit
        exact absurd ⟨rest, hsplit⟩ (hnone kind text htext)
      · rw [pieces, hfirst, ih]
  · -- that the first piece is a longest one is checked piece by piece
    rintro rfl
    induction cs using pieces.induct with
    | case1 =>
      rw [pieces]
      exact .nil
    | case2 c cs ih =>
      have hsplit := text_firstPiece c cs
      rw [pieces]
      rcases firstPiece_cases c cs with
        ⟨hc, hfirst⟩ | ⟨hc, ⟨kind, text, rest, hfirst, htext⟩ | hfirst⟩
      · rw [hfirst] at ih ⊢
        exact .blank hc ih
      · rw [hfirst] at ih hsplit ⊢
        rw [← hsplit]
        refine .lexeme htext (fun kind' text' htext' hprefix => ?_) ih
        obtain ⟨_, _, hpiece, hle, -⟩ := firstPiece_longest htext' (hsplit ▸ hprefix)
        rw [hfirst] at hpiece
        cases hpiece
        exact hle
      · rw [hfirst] at ih ⊢
        refine .stray hc (fun kind text htext hprefix => ?_) ih
        obtain ⟨_, _, hpiece, -⟩ := firstPiece_longest htext hprefix
        rw [hfirst] at hpiece
        cases hpiece

/-! ### Runs of digits and points -/

/-- A run of digits and points is the text of a number exactly if it has no second point. -/
theorem readDouble?_run {text : List Char} (htext : IsLexeme .number text) :
    (readDouble? (String.ofList text)).isSome = true ↔ text.count '.' ≤ 1 := by
  have hpart : (text.all fun c => c.isDigit || c == '.') = true := by
    cases htext with
    | number hc hcs =>
      exact List.all_eq_true.mpr (List.forall_mem_cons.mpr ⟨isNumberPart_of_startsNumber hc, hcs⟩)
  have hdigit : text.any Char.isDigit = true := by
    cases htext with
    | @number c cs hc _ =>
      rw [startsNumber, Bool.or_eq_true, Bool.and_eq_true] at hc
      rcases hc with hc | ⟨-, hnext⟩
      · rw [List.any_cons, hc, Bool.true_or]
      · cases cs with
        | nil => cases hnext
        | cons d ds =>
          have hd : d.isDigit = true := hnext
          rw [List.any_cons, List.any_cons, hd, Bool.true_or, Bool.or_true]
  -- a second point is the only thing that can be wrong with a run of digits and points
  constructor
  · contrapose!
    intro hcount
    cases text with
    | nil => cases hcount
    | cons c cs =>
      have hc : c.isDigit = true ∨ c = '.' := by
        simpa using List.all_eq_true.mp hpart c List.mem_cons_self
      rw [readDouble?_eq_read? hc, Decimal.read?_eq_none hpart hcount]
      exact Bool.false_ne_true
  · intro hcount
    obtain ⟨x, hx, -⟩ := readDouble?_numeral hdigit hpart hcount
    rw [hx, Option.isSome_some]

/-! ### Tokens and reports -/

/-- A run of digits and points with a second point. -/
def HasSecondPoint (kind : TokenKind) (text : List Char) : Prop :=
  kind = .number ∧ 2 ≤ text.count '.'

instance (kind : TokenKind) (text : List Char) : Decidable (HasSecondPoint kind text) :=
  inferInstanceAs (Decidable (_ ∧ _))

namespace Piece

/-- The kind and the text of the token that a piece is read as. -/
def word? : Piece → Option (TokenKind × String)
  | .lexeme kind text => some (kind, if HasSecondPoint kind text then "0" else String.ofList text)
  | _ => none

/-- What is reported about a piece. -/
def report? : Piece → Option Issue
  | .blank _ => none
  | .stray c => some (.strayCharacter c)
  | .lexeme kind text =>
    if HasSecondPoint kind text then some (.malformedNumber (String.ofList text)) else none

/-- A numeral is malformed if it has a second point. -/
private theorem isMalformedNumber_iff {kind : TokenKind} {text : List Char} :
    isMalformedNumber (.lexeme kind text) = true ↔ HasSecondPoint kind text := by
  by_cases hkind : kind = .number
  · subst hkind
    exact decide_eq_true_iff.trans (and_iff_right rfl).symm
  · simp [isMalformedNumber, HasSecondPoint, hkind]

private theorem token?_eq (p : Position) (piece : Piece) :
    piece.token? p = piece.word?.map fun (kind, text) => ⟨kind, text, p⟩ := by
  cases piece with
  | lexeme kind text => simp only [token?, word?, isMalformedNumber_iff, Option.map_some]
  | _ => rfl

private theorem issue?_eq (piece : Piece) : piece.issue? = piece.report? := by
  cases piece with
  | lexeme kind text => simp only [issue?, report?, isMalformedNumber_iff]
  | _ => rfl

end Piece

/-- The tokens of a script, wherever they stand. -/
theorem words_tokenize (source : String) :
    (tokenize source).tokens.map (fun t => (t.kind, t.text)) =
      (pieces source.toList).filterMap Piece.word? ++ [(.endOfScript, "")] := by
  have hword : (fun p : Piece => (p.token? .start).map fun t => (t.kind, t.text)) =
      Piece.word? := by
    funext piece
    rw [Piece.token?_eq, Option.map_map]
    exact Option.map_id'
  have hplace := tokensOf_place .start (pieces source.toList)
  have hkinds := congrArg (List.map fun t : Token => (t.kind, t.text)) hplace
  rw [List.map_map, List.map_filterMap, hword] at hkinds
  rw [tokenize_eq, List.map_append]
  exact congrArg (· ++ _) hkinds

/-- What is reported of the characters of a script is what is wrong with its pieces, in order. -/
theorem reports_tokenize (source : String) :
    (tokenize source).diagnostics.map (·.issue) =
      (pieces source.toList).filterMap Piece.report? := by
  rw [← funext Piece.issue?_eq]
  exact strayOf_place .start (pieces source.toList)

/-- A lexeme of the cut is one by its text alone. -/
theorem Munches.isLexeme {cs : List Char} {ps : List Piece} (h : Munches cs ps) {kind : TokenKind}
    {text : List Char} (hmem : .lexeme kind text ∈ ps) : IsLexeme kind text := by
  induction h with
  | nil => cases hmem
  | blank _ _ ih | stray _ _ _ ih =>
    exact ih ((List.mem_cons.mp hmem).resolve_left Piece.noConfusion)
  | lexeme htext _ _ ih =>
    rcases List.mem_cons.mp hmem with heq | hmem
    · cases heq
      exact htext
    · exact ih hmem

/-- The text of every number is that of a number. -/
private theorem isSome_readDouble?_word {kind : TokenKind} {run : List Char} {text : String}
    (hrun : IsLexeme kind run) (hword : (Piece.lexeme kind run).word? = some (.number, text)) :
    (readDouble? text).isSome = true := by
  obtain ⟨rfl, rfl⟩ := Prod.mk.inj (Option.some.inj hword)
  split
  · rfl
  · rename_i hpoints
    rw [readDouble?_run hrun]
    exact Nat.le_of_lt_succ (not_le.mp fun h => hpoints ⟨rfl, h⟩)

/-- **The tokens of a script are its lexemes, the longest first.** There is exactly one cut of a
script into blanks, stray characters and longest lexemes. It leaves nothing out, the tokens are its
lexemes in order and then the one end of the script, and what is reported are its stray characters
and its runs with a second point. These are read as `0`, as they are no numbers themselves, so that
the text of every number is that of a number. -/
theorem tokenize_munches (source : String) :
    ∃ ps, (∀ qs, Munches source.toList qs ↔ qs = ps) ∧
      ps.flatMap Piece.text = source.toList ∧
      (tokenize source).tokens.map (fun t => (t.kind, t.text)) =
        ps.filterMap Piece.word? ++ [(.endOfScript, "")] ∧
      ((tokenize source).tokens.map (·.kind)).count .endOfScript = 1 ∧
      (tokenize source).diagnostics.map (·.issue) = ps.filterMap Piece.report? ∧
      (∀ text, .lexeme .number text ∈ ps →
        ((readDouble? (String.ofList text)).isSome = true ↔ ¬HasSecondPoint .number text)) ∧
      ∀ t ∈ (tokenize source).tokens, t.kind = .number → (readDouble? t.text).isSome = true := by
  have hcut : Munches source.toList (pieces source.toList) := munches_iff.mpr rfl
  refine ⟨pieces source.toList, fun qs => munches_iff, text_pieces _, words_tokenize source, ?_,
    reports_tokenize source, ?_, ?_⟩
  · -- no lexeme is an end of the script, so there is only the one behind them all
    have hnone : TokenKind.endOfScript ∉
        ((pieces source.toList).filterMap Piece.word?).map Prod.fst := by
      intro hmem
      obtain ⟨⟨kind, text⟩, hword, rfl⟩ := List.mem_map.mp hmem
      obtain ⟨piece, hpiece, hword⟩ := List.mem_filterMap.mp hword
      cases piece with
      | lexeme kind run =>
        obtain ⟨rfl, -⟩ := Prod.mk.inj (Option.some.inj hword)
        exact (hcut.isLexeme hpiece).kind_ne rfl
      | _ => cases hword
    have hkinds := congrArg (List.map Prod.fst) (words_tokenize source)
    rw [List.map_map, List.map_append] at hkinds
    change (tokenize source).tokens.map (·.kind) = _ at hkinds
    rw [hkinds, List.count_append, List.count_eq_zero.mpr hnone]
    rfl
  · intro text hmem
    rw [readDouble?_run (hcut.isLexeme hmem), HasSecondPoint, and_iff_right rfl, not_le,
      Nat.lt_succ_iff]
  · intro t ht hkind
    have hmem := List.mem_map_of_mem (f := fun t : Token => (t.kind, t.text)) ht
    rw [words_tokenize, hkind] at hmem
    rcases List.mem_append.mp hmem with hmem | hmem
    · obtain ⟨piece, hpiece, hword⟩ := List.mem_filterMap.mp hmem
      cases piece with
      | lexeme kind run => exact isSome_readDouble?_word (hcut.isLexeme hpiece) hword
      | _ => cases hword
    · cases List.mem_singleton.mp hmem

end PointScope.Script
