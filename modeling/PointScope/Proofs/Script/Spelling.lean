import PointScope.Proofs.Script.Munch

/-!
# Tokens that are written and read again

A token can be written if its text is a lexeme of its kind and, for a number, has at most one point
(`Token.Writable`). Tokens that are written one after another, with blanks between them, are read
as they were (`tokenize_spell`). For a lexeme by itself is one piece (`pieces_lexeme`), as no longer
one starts where it does, and a blank is a barrier that no piece reaches across; so the pieces of
the text are the lexemes and the blanks in order (`pieces_spell`). No script has other tokens than
these (`writable_of_mem_tokens`).
-/

namespace PointScope.Script

/-! ### Tokens with gaps behind them -/

/-- The token can be written: its text is a lexeme of its kind, without a second point if it is a
number. -/
structure Token.Writable (t : Token) : Prop where
  isLexeme : IsLexeme t.kind t.text.toList
  points : ¬HasSecondPoint t.kind t.text.toList

/-- The texts of tokens, each with a gap behind it, and a gap in front of them all. -/
def spell (front : List Char) (words : List (Token × List Char)) : List Char :=
  front ++ words.flatMap fun (t, gap) => t.text.toList ++ gap

/-- All gaps are blanks, and only those at the front and at the end may be empty. -/
structure Gapped (front : List Char) (words : List (Token × List Char)) : Prop where
  front : ∀ c ∈ front, isBlank c = true
  blanks : ∀ w ∈ words, ∀ c ∈ w.2, isBlank c = true
  nonempty : ∀ w ∈ words.dropLast, w.2 ≠ []

/-! ### Pieces -/

/-- A lexeme by itself is one piece. -/
theorem pieces_lexeme {kind : TokenKind} {text : List Char} (h : IsLexeme kind text) :
    pieces text = [.lexeme kind text] := by
  have hcut : Munches (text ++ []) [.lexeme kind text] := by
    refine .lexeme h (fun kind' text' _ hprefix => ?_) .nil
    rw [List.append_nil] at hprefix
    exact hprefix.length_le
  rw [List.append_nil] at hcut
  exact (munches_iff.mp hcut).symm

/-- Every blank is a piece. -/
private theorem pieces_blanks {gap : List Char} (hgap : ∀ c ∈ gap, isBlank c = true)
    (cs : List Char) :
    pieces (gap ++ cs) = gap.map .blank ++ pieces cs := by
  induction gap with
  | nil => rfl
  | cons c gap ih =>
    obtain ⟨hc, hgap⟩ := List.forall_mem_cons.mp hgap
    have hfirst : firstPiece c (gap ++ cs) = (.blank c, gap ++ cs) := by
      rw [firstPiece, if_pos hc]
    rw [List.cons_append, pieces, hfirst, ih hgap]
    rfl

/-- A lexeme ends at a gap behind it, if there is a gap or nothing follows. -/
theorem pieces_lexeme_append {kind : TokenKind} {text gap cs : List Char}
    (htext : IsLexeme kind text) (hgap : ∀ c ∈ gap, isBlank c = true) (hcs : gap = [] → cs = []) :
    pieces (text ++ (gap ++ cs)) = .lexeme kind text :: gap.map .blank ++ pieces cs := by
  cases gap with
  | nil =>
    rw [hcs rfl, List.append_nil, List.append_nil, pieces_lexeme htext, pieces]
    rfl
  | cons b gap =>
    have hb := isBarrier_of_isBlank (hgap b List.mem_cons_self)
    rw [List.cons_append, pieces_append_barrier hb, pieces_lexeme htext, ← List.cons_append,
      pieces_blanks hgap]
    rfl

/-- **The pieces of written tokens** are their lexemes and the blanks, in order. -/
theorem pieces_spell {front : List Char} {words : List (Token × List Char)}
    (hwords : ∀ w ∈ words, IsLexeme w.1.kind w.1.text.toList) (hgaps : Gapped front words) :
    pieces (spell front words) = front.map .blank ++
      words.flatMap fun (t, gap) => .lexeme t.kind t.text.toList :: gap.map .blank := by
  obtain ⟨hfront, hblanks, hnonempty⟩ := hgaps
  rw [spell, pieces_blanks hfront]
  congr 1
  induction words with
  | nil => rw [List.flatMap_nil, pieces, List.flatMap_nil]
  | cons w rest ih =>
    obtain ⟨t, gap⟩ := w
    obtain ⟨ht, hrest⟩ := List.forall_mem_cons.mp hwords
    obtain ⟨hgap, hblanks⟩ := List.forall_mem_cons.mp hblanks
    -- a gap between two tokens is not empty
    have hlast : gap = [] → rest.flatMap (fun (t, gap) => t.text.toList ++ gap) = [] := by
      intro hnil
      cases rest with
      | nil => rfl
      | cons => exact absurd hnil (hnonempty (t, gap) List.mem_cons_self)
    have hnonempty : ∀ w ∈ rest.dropLast, w.2 ≠ [] := by
      intro w hw
      refine hnonempty w ?_
      rw [List.dropLast_cons_of_ne_nil (List.ne_nil_of_mem (List.mem_of_mem_dropLast hw))]
      exact List.mem_cons_of_mem _ hw
    rw [List.flatMap_cons, List.flatMap_cons, List.append_assoc,
      pieces_lexeme_append ht hgap hlast, ih hrest hblanks hnonempty]

/-! ### Tokens -/

theorem Token.Writable.word? {t : Token} (h : t.Writable) :
    (Piece.lexeme t.kind t.text.toList).word? = some (t.kind, t.text) := by
  rw [Piece.word?, if_neg h.points, String.ofList_toList]

theorem Token.Writable.report? {t : Token} (h : t.Writable) :
    (Piece.lexeme t.kind t.text.toList).report? = none := if_neg h.points

private theorem filterMap_blanks {α : Type} {f : Piece → Option α} (hf : ∀ c, f (.blank c) = none)
    (gap : List Char) : (gap.map Piece.blank).filterMap f = [] := by
  rw [List.filterMap_map]
  exact List.filterMap_eq_nil_iff.mpr fun c _ => hf c

/-- A view of the pieces that is blind to blanks sees the tokens. -/
private theorem filterMap_spelled {α : Type} {f : Piece → Option α} (hf : ∀ c, f (.blank c) = none)
    (words : List (Token × List Char)) :
    (words.flatMap fun (t, gap) =>
        Piece.lexeme t.kind t.text.toList :: gap.map .blank).filterMap f =
      words.filterMap fun w => f (.lexeme w.1.kind w.1.text.toList) := by
  induction words with
  | nil => rfl
  | cons w rest ih =>
    rw [List.flatMap_cons, List.filterMap_append, ih, List.filterMap_cons, filterMap_blanks hf,
      List.filterMap_cons]
    cases f (.lexeme w.1.kind w.1.text.toList) <;> rfl

private theorem Token.writable_of_text {t : Token} (text : List Char)
    (htext : t.text = String.ofList text)
    (h : IsLexeme t.kind text) (hpoints : ¬HasSecondPoint t.kind text) : t.Writable := by
  have heq : t.text.toList = text := by rw [htext, String.toList_ofList]
  exact ⟨heq ▸ h, heq ▸ hpoints⟩

/-- Every token that is read but the end of the script can be written. -/
theorem writable_of_mem_tokens {source : String} {t : Token} (ht : t ∈ (tokenize source).tokens)
    (hkind : t.kind ≠ .endOfScript) : t.Writable := by
  have hcut : Munches source.toList (pieces source.toList) := munches_iff.mpr rfl
  have hmem := List.mem_map_of_mem (f := fun t : Token => (t.kind, t.text)) ht
  rw [words_tokenize] at hmem
  rcases List.mem_append.mp hmem with hmem | hmem
  · obtain ⟨piece, hpiece, hword⟩ := List.mem_filterMap.mp hmem
    cases piece with
    | blank | stray => cases hword
    | lexeme kind text =>
      -- the text of the token is the run itself, but for a malformed number
      obtain ⟨rfl, htext⟩ := Prod.mk.inj (Option.some.inj hword)
      split at htext
      · -- a run with a second point is read as `0`
        rename_i hpoints
        have hzero : IsLexeme t.kind ['0'] :=
          hpoints.1 ▸ .number (by decide) (List.forall_mem_nil _)
        exact Token.writable_of_text _ htext.symm hzero fun hpoints => absurd hpoints.2 (by decide)
      · exact Token.writable_of_text _ htext.symm (hcut.isLexeme hpiece) ‹_›
  · exact absurd (congrArg Prod.fst (List.mem_singleton.mp hmem)) hkind

/-- **Reading undoes writing.** Tokens that are written one after another with blanks between them,
as many as one likes and of any kind but at least one, are read with the same kinds and texts in the
same order; then comes the end of the script, and nothing is reported. The tokens of any script can
be written. -/
theorem tokenize_spell {front : List Char} {words : List (Token × List Char)}
    (hwords : ∀ w ∈ words, w.1.Writable) (hgaps : Gapped front words) :
    (tokenize (String.ofList (spell front words))).tokens.map (fun t => (t.kind, t.text)) =
        words.map (fun w => (w.1.kind, w.1.text)) ++ [(.endOfScript, "")] ∧
      (tokenize (String.ofList (spell front words))).diagnostics = [] ∧
      ∀ source, ∀ t ∈ (tokenize source).tokens, t.kind ≠ .endOfScript → t.Writable := by
  have hpieces := pieces_spell (fun w hw => (hwords w hw).isLexeme) hgaps
  refine ⟨?_, ?_, fun source t => writable_of_mem_tokens⟩
  · rw [words_tokenize, String.toList_ofList, hpieces, List.filterMap_append,
      filterMap_blanks fun _ => rfl, filterMap_spelled fun _ => rfl, List.nil_append]
    congr 1
    rw [← List.filterMap_eq_map]
    exact List.filterMap_congr fun w hw => (hwords w hw).word?
  · have hreports := reports_tokenize (String.ofList (spell front words))
    rw [String.toList_ofList, hpieces, List.filterMap_append, filterMap_blanks fun _ => rfl,
      filterMap_spelled fun _ => rfl, List.nil_append] at hreports
    refine List.map_eq_nil_iff.mp (hreports.trans ?_)
    exact List.filterMap_eq_nil_iff.mpr fun w hw => (hwords w hw).report?

/-- A line with a tab, a no-break space and a run of spaces in it. -/
theorem tokenize_spell_line :
    let words : List (Token × List Char) :=
      [(word .name "X_1", ['\t']), (word .assign "=", [' ', ' ']), (word .number ".5", [' ']),
        (word (.operator .lessEqual) "<=", ['\u00a0']), (word .separator "\n", [])]
    ((∀ w ∈ words, w.1.Writable) ∧ Gapped [' '] words) ∧
      (tokenize (String.ofList (spell [' '] words))).tokens.map (fun t => (t.kind, t.text)) =
        words.map (fun w => (w.1.kind, w.1.text)) ++ [(.endOfScript, "")] := by
  intro words
  have hname : (word .name "X_1").Writable :=
    Token.writable_of_text ['X', '_', '1'] rfl
      (.name (by decide) (List.all_eq_true.mp rfl)) (by decide)
  have hassign : (word .assign "=").Writable :=
    Token.writable_of_text ['='] rfl .assign (by decide)
  have hhalf : (word .number ".5").Writable :=
    Token.writable_of_text ['.', '5'] rfl
      (.number (by decide) (List.all_eq_true.mp rfl)) (by decide)
  have hless : (word (.operator .lessEqual) "<=").Writable :=
    Token.writable_of_text ['<', '='] rfl (.operator .lessEqual) (by decide)
  have hline : (word .separator "\n").Writable :=
    Token.writable_of_text ['\n'] rfl (.separator (.inr (.inl rfl))) (by decide)
  have hwords : ∀ w ∈ words, w.1.Writable := by
    simp only [words, List.forall_mem_cons]
    exact ⟨hname, hassign, hhalf, hless, hline, List.forall_mem_nil _⟩
  have hblanks : ∀ w ∈ words, w.2.all isBlank = true := by
    simp only [words, List.forall_mem_cons]
    exact ⟨rfl, rfl, rfl, rfl, rfl, List.forall_mem_nil _⟩
  have hgaps : Gapped [' '] words :=
    ⟨List.all_eq_true.mp rfl, fun w hw => List.all_eq_true.mp (hblanks w hw), by simp [words]⟩
  exact ⟨⟨hwords, hgaps⟩, (tokenize_spell hwords hgaps).1⟩

end PointScope.Script
