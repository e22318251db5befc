import PointScope.Proofs.Script.Words

/-!
# Letter case in scripts

Scripts that differ only in the case of letters compile to the same program with the same
diagnostics (`compile_eq_of_fold_eq`). Making the letters of a script small makes those of its
pieces small (`pieces_map_toLower`), and this changes only its names (`fold_of_mem_pieces`), which
the parser keeps in small letters anyway (`parse_map_fold`).
-/

namespace PointScope.Script

/-! ### Characters -/

section Characters

variable (c : Char)

/-- A letter is no blank and no part of a number, and a name can start and go on with it. -/
private theorem classes_of_isAlpha {c : Char} (h : c.isAlpha = true) :
    isBlank c = false ∧ isNumberPart c = false ∧ isNameStart c = true ∧ isNamePart c = true := by
  have hstart : isNameStart c = true := by rw [isNameStart, h, Bool.true_or, Bool.true_or]
  have hpart := isNamePart_of_isNameStart hstart
  exact ⟨isBlank_eq_false (.inl hpart), isNumberPart_eq_false hstart, hstart, hpart⟩

section NoLetter

variable {c : Char}

private theorem isAlpha_of_isBlank (h : isBlank c = true) : c.isAlpha = false :=
  Bool.eq_false_iff.mpr fun halpha =>
    Bool.false_ne_true ((classes_of_isAlpha halpha).1.symm.trans h)

private theorem isAlpha_of_isNumberPart (h : isNumberPart c = true) : c.isAlpha = false :=
  Bool.eq_false_iff.mpr fun halpha =>
    Bool.false_ne_true ((classes_of_isAlpha halpha).2.1.symm.trans h)

private theorem isAlpha_of_isNameStart (h : isNameStart c = false) : c.isAlpha = false :=
  Bool.eq_false_iff.mpr fun halpha =>
    Bool.false_ne_true (h.symm.trans (classes_of_isAlpha halpha).2.2.1)

end NoLetter

private theorem isBlank_toLower : isBlank c.toLower = isBlank c :=
  Text.apply_toLower (fun _ h => (classes_of_isAlpha h).1) c

private theorem isNumberPart_toLower : isNumberPart c.toLower = isNumberPart c :=
  Text.apply_toLower (fun _ h => (classes_of_isAlpha h).2.1) c

private theorem isDigit_toLower : c.toLower.isDigit = c.isDigit :=
  Text.apply_toLower (fun _ h => (Bool.or_eq_false_iff.mp (classes_of_isAlpha h).2.1).1) c

theorem isNameStart_toLower : isNameStart c.toLower = isNameStart c :=
  Text.apply_toLower (fun _ h => (classes_of_isAlpha h).2.2.1) c

theorem isNamePart_toLower : isNamePart c.toLower = isNamePart c :=
  Text.apply_toLower (fun _ h => (classes_of_isAlpha h).2.2.2) c

end Characters

/-! ### Runs of characters -/

section Runs

variable (cs : List Char)

/-- A class of characters that ignores letter case cuts off the same. -/
private theorem takeWhile_map_toLower {p : Char → Bool} (hp : ∀ c : Char, p c.toLower = p c) :
    (cs.map Char.toLower).takeWhile p = (cs.takeWhile p).map Char.toLower := by
  rw [List.takeWhile_map, show p ∘ Char.toLower = p from funext hp]

private theorem dropWhile_map_toLower {p : Char → Bool} (hp : ∀ c : Char, p c.toLower = p c) :
    (cs.map Char.toLower).dropWhile p = (cs.dropWhile p).map Char.toLower := by
  rw [List.dropWhile_map, show p ∘ Char.toLower = p from funext hp]

private theorem map_toLower_eq_self {cs : List Char} (h : ∀ c ∈ cs, c.isAlpha = false) :
    cs.map Char.toLower = cs :=
  (List.map_congr_left fun c hc => Text.toLower_eq_self (h c hc)).trans (List.map_id _)

/-- What a text starts with, if that has no letters, does not depend on their case. -/
private theorem isPrefixOf_map_toLower {w : List Char} (hw : ∀ a ∈ w, a.isAlpha = false) :
    w.isPrefixOf (cs.map Char.toLower) = w.isPrefixOf cs := by
  induction w generalizing cs with
  | nil => simp
  | cons a w ih =>
    obtain ⟨ha, hw⟩ := List.forall_mem_cons.mp hw
    cases cs with
    | nil => rfl
    | cons c cs =>
      have hfirst : (a == c.toLower) = (a == c) := by
        rw [Bool.eq_iff_iff, beq_iff_eq, beq_iff_eq, eq_comm, Text.toLower_eq_iff ha, eq_comm]
      rw [List.map_cons, List.isPrefixOf, List.isPrefixOf, hfirst, ih _ hw]

end Runs

/-! ### Pieces -/

/-- A piece in small letters. -/
def Piece.fold : Piece → Piece
  | .blank c => .blank c.toLower
  | .stray c => .stray c.toLower
  | .lexeme kind text => .lexeme kind (text.map Char.toLower)

private theorem Piece.text_fold (piece : Piece) :
    piece.fold.text = piece.text.map Char.toLower := by
  cases piece <;> rfl

/-- Only letters have small forms. -/
private theorem Piece.fold_eq_self {piece : Piece} (h : ∀ c ∈ piece.text, c.isAlpha = false) :
    piece.fold = piece := by
  cases piece with
  | blank c => exact congrArg blank (Text.toLower_eq_self (h c List.mem_cons_self))
  | stray c => exact congrArg stray (Text.toLower_eq_self (h c List.mem_cons_self))
  | lexeme kind text => exact congrArg (lexeme kind) (map_toLower_eq_self h)

/-- No operator is written with letters. -/
private theorem isAlpha_of_mem_symbol (op : Operator) :
    ∀ c ∈ op.symbol.toList, c.isAlpha = false := by
  have hall : op.symbol.toList.all (!·.isAlpha) = true := by
    cases op <;> rfl
  intro c hc
  exact Bool.not_eq_true' _ ▸ List.all_eq_true.mp hall c hc

section FirstPiece

variable (c : Char) (cs : List Char)

private theorem startsNumber_map_toLower :
    startsNumber c.toLower (cs.map Char.toLower) = startsNumber c cs := by
  have hpoint : (c.toLower == '.') = (c == '.') := by
    rw [Bool.eq_iff_iff, beq_iff_eq, beq_iff_eq, Text.toLower_eq_iff (by decide)]
  have hnext : (cs.map Char.toLower).head?.any Char.isDigit = cs.head?.any Char.isDigit := by
    cases cs with
    | nil => rfl
    | cons d _ => exact isDigit_toLower d
  rw [startsNumber, startsNumber, isDigit_toLower, hpoint, hnext]

private theorem punctuation?_map_toLower :
    punctuation? c.toLower (cs.map Char.toLower) = punctuation? c cs := by
  have hletter : ∀ d : Char, d.isAlpha = true → punctuation? d cs = none := by
    intro d hd
    unfold punctuation?
    split <;> first | rfl | exact absurd hd (by decide)
  have hnext : (cs.map Char.toLower).head? = some '=' ↔ cs.head? = some '=' := by
    cases cs with
    | nil => rfl
    | cons d ds => simp [Text.toLower_eq_iff]
  rw [← Text.apply_toLower hletter c]
  unfold punctuation?
  simp only [hnext]

private theorem operatorAt?_map_toLower : operatorAt? (cs.map Char.toLower) = operatorAt? cs := by
  unfold operatorAt?
  congr 1
  funext op
  exact isPrefixOf_map_toLower cs (isAlpha_of_mem_symbol op)

/-- The first piece of a text in small letters. -/
private theorem firstPiece_map_toLower :
    firstPiece c.toLower (cs.map Char.toLower) =
      ((firstPiece c cs).1.fold, (firstPiece c cs).2.map Char.toLower) := by
  have hoperator := operatorAt?_map_toLower (c :: cs)
  rw [List.map_cons] at hoperator
  unfold firstPiece
  rw [isBlank_toLower, startsNumber_map_toLower, isNameStart_toLower, punctuation?_map_toLower,
    hoperator, takeWhile_map_toLower cs isNumberPart_toLower,
    dropWhile_map_toLower cs isNumberPart_toLower, takeWhile_map_toLower cs isNamePart_toLower,
    dropWhile_map_toLower cs isNamePart_toLower]
  cases isBlank c
  case true => rfl
  cases startsNumber c cs
  case true => rfl
  cases isNameStart c
  case true => rfl
  cases punctuation? c cs with
  | some kind => rfl
  | none =>
    cases operatorAt? (c :: cs) with
    | none => rfl
    | some op =>
      -- the characters of an operator are no letters, so they stay as they are
      have htail := map_toLower_eq_self fun d hd =>
        isAlpha_of_mem_symbol op d (List.mem_of_mem_tail hd)
      simp only [Bool.false_eq_true, if_false, Piece.fold, List.map_cons, htail, List.map_drop]

/-- Only a name has letters. -/
theorem firstPiece_letters : (∀ d ∈ (firstPiece c cs).1.text, d.isAlpha = false) ∨
    ∃ text, (firstPiece c cs).1 = .lexeme .name text := by
  unfold firstPiece
  cases hblank : isBlank c
  case true => exact .inl (List.forall_mem_singleton.mpr (isAlpha_of_isBlank hblank))
  cases hnumber : startsNumber c cs
  case true =>
    have hfirst := isAlpha_of_isNumberPart (isNumberPart_of_startsNumber hnumber)
    refine .inl (List.forall_mem_cons.mpr ⟨hfirst, fun d hd => ?_⟩)
    exact isAlpha_of_isNumberPart (List.mem_takeWhile_imp hd)
  cases hname : isNameStart c
  case true => exact .inr ⟨_, rfl⟩
  -- what is left starts with no letter
  have hfirst := isAlpha_of_isNameStart hname
  left
  cases punctuation? c cs with
  | some kind => exact List.forall_mem_singleton.mpr hfirst
  | none =>
    cases operatorAt? (c :: cs) with
    | none => exact List.forall_mem_singleton.mpr hfirst
    | some op =>
      exact List.forall_mem_cons.mpr
        ⟨hfirst, fun d hd => isAlpha_of_mem_symbol op d (List.mem_of_mem_tail hd)⟩

end FirstPiece

/-- **A text in small letters** has the same pieces, in small letters. -/
theorem pieces_map_toLower (cs : List Char) :
    pieces (cs.map Char.toLower) = (pieces cs).map Piece.fold := by
  induction cs using pieces.induct with
  | case1 => rw [List.map_nil, pieces]; rfl
  | case2 c cs ih =>
    rw [List.map_cons, pieces, firstPiece_map_toLower, ih, pieces.eq_def (c :: cs)]
    rfl

/-- Only its names are changed. -/
theorem fold_of_mem_pieces {cs : List Char} {piece : Piece} (h : piece ∈ pieces cs) :
    piece.fold = piece ∨ ∃ text, piece = .lexeme .name text := by
  induction cs using pieces.induct with
  | case1 => simp [pieces] at h
  | case2 c cs ih =>
    rw [pieces] at h
    cases h with
    | head => exact (firstPiece_letters c cs).imp_left Piece.fold_eq_self
    | tail _ h => exact ih h

/-! ### Tokens -/

/-- A token with its name, if it is one, in small letters. -/
def Token.fold (t : Token) : Token :=
  if t.kind = .name then { t with text := Text.fold t.text } else t

private theorem Token.kind_fold (t : Token) : t.fold.kind = t.kind := by
  rw [fold]
  split <;> rfl

private theorem Token.position_fold (t : Token) : t.fold.position = t.position := by
  rw [fold]
  split <;> rfl

private theorem Token.text_fold {t : Token} (h : t.kind ≠ .name) : t.fold.text = t.text := by
  rw [fold, if_neg h]

private theorem Token.fold_text_fold (t : Token) : Text.fold t.fold.text = Text.fold t.text := by
  rw [fold]
  split
  · exact Text.fold_fold _
  · rfl

/-- Small letters take the same space. -/
private theorem advance_map_toLower (p : Position) (cs : List Char) :
    p.advance (cs.map Char.toLower) = p.advance cs := by
  have hafter : ∀ (q : Position) (c : Char), q.after c.toLower = q.after c := fun q => by
    refine Text.apply_toLower fun c hc => if_neg ?_
    rintro rfl
    cases hc
  rw [Position.advance, List.foldl_map]
  exact congrArg (List.foldl · p cs) (funext₂ hafter)

private theorem place_map_fold (p : Position) (ps : List Piece) :
    place p (ps.map Piece.fold) = (place p ps).map fun (q, piece) => (q, piece.fold) := by
  induction ps generalizing p with
  | nil => rfl
  | cons piece ps ih =>
    rw [List.map_cons, place, place, Piece.text_fold, advance_map_toLower, ih, List.map_cons]

/-- The token of a piece in small letters, and what is wrong with it. -/
theorem Piece.token?_fold {piece : Piece}
    (h : piece.fold = piece ∨ ∃ text, piece = .lexeme .name text) (p : Position) :
    piece.fold.token? p = (piece.token? p).map Token.fold ∧ piece.fold.issue? = piece.issue? := by
  by_cases hname : ∃ text, piece = .lexeme .name text
  · obtain ⟨text, rfl⟩ := hname
    have htext : Text.fold (String.ofList text) = String.ofList (text.map Char.toLower) := by
      rw [← String.toList_inj, Text.toList_fold, String.toList_ofList, String.toList_ofList]
    exact ⟨congrArg (fun s => some (Token.mk .name s p)) htext.symm, rfl⟩
  · rw [h.resolve_right hname]
    refine ⟨?_, rfl⟩
    cases piece with
    | blank c | stray c => rfl
    | lexeme kind text =>
      have hkind : kind ≠ .name := by
        rintro rfl
        exact hname ⟨text, rfl⟩
      rw [Piece.token?, Option.map_some, Token.fold, if_neg hkind]

/-- **Small letters change nothing but names** in the tokens of a script. -/
theorem tokenize_fold (s : String) :
    tokenize (Text.fold s) = ⟨(tokenize s).tokens.map Token.fold, (tokenize s).diagnostics⟩ := by
  have hpiece : ∀ placed ∈ place .start (pieces s.toList),
      placed.2.fold = placed.2 ∨ ∃ text, placed.2 = .lexeme .name text :=
    fun _ hplaced => fold_of_mem_pieces (mem_of_mem_place hplaced)
  rw [tokenize_eq, tokenize_eq, Text.toList_fold, advance_map_toLower, pieces_map_toLower,
    place_map_fold, List.map_append]
  refine congrArg₂ Lexed.mk (congrArg (· ++ _) ?_) ?_
  · rw [tokensOf, tokensOf, List.filterMap_map, List.map_filterMap]
    exact List.filterMap_congr fun placed hplaced =>
      (Piece.token?_fold (hpiece placed hplaced) placed.1).1
  · rw [strayOf, strayOf, List.filterMap_map]
    exact List.filterMap_congr fun placed hplaced =>
      congrArg (Option.map (Diagnostic.mk · placed.1))
        (Piece.token?_fold (hpiece placed hplaced) placed.1).2

/-! ### Parsing -/

private theorem startOperand_fold (ctx : Context) (t : Token) (next : Position) :
    startOperand ctx t.fold next = startOperand ctx t next := by
  unfold startOperand
  rw [Token.kind_fold, Token.fold_text_fold]
  by_cases hkind : t.kind = .name
  · rw [hkind]
  · rw [Token.text_fold hkind]

private theorem stepIdle_fold (t : Token) (next : Position) :
    stepIdle t.fold next = stepIdle t next := by
  unfold stepIdle
  rw [startOperand_fold, Token.position_fold]
  -- a name always starts a statement, so no name is shown
  by_cases hkind : t.kind = .name
  · rw [startOperand, hkind]
  · rw [Token.text_fold hkind]

private theorem stepValue_fold (ctx : Context) (e : Expr) (t : Token) (next : Position) :
    stepValue ctx e t.fold next = stepValue ctx e t next := by
  unfold stepValue endStatement
  rw [Token.kind_fold, Token.position_fold, stepIdle_fold]

private theorem stepOperand_fold (ctx : Context) (t : Token) (next : Position) :
    stepOperand ctx t.fold next = stepOperand ctx t next := by
  unfold stepOperand
  simp only [Token.kind_fold, Token.position_fold, startOperand_fold, stepValue_fold]

private theorem stepNamed_fold (ctx : Context) (name : String) (t : Token) (next : Position) :
    stepNamed ctx name t.fold next = stepNamed ctx name t next := by
  unfold stepNamed
  simp only [Token.kind_fold, stepValue_fold]

/-- The parser keeps names in small letters. -/
theorem Focus.step_fold (focus : Focus) (t : Token) (next : Position) :
    focus.step t.fold next = focus.step t next := by
  cases focus with
  | idle => exact stepIdle_fold t next
  | operand ctx => exact stepOperand_fold ctx t next
  | named ctx name => exact stepNamed_fold ctx name t next
  | value ctx e => exact stepValue_fold ctx e t next

private theorem Focus.run_fold (focus : Focus) (stop : Position) (ts : List Token) :
    focus.run stop (ts.map Token.fold) = focus.run stop ts := by
  induction ts generalizing focus with
  | nil => rfl
  | cons t ts ih =>
    have hnext : nextPosition (ts.map Token.fold) stop = nextPosition ts stop := by
      cases ts with
      | nil => rfl
      | cons u _ => exact u.position_fold
    rw [List.map_cons, run, run, hnext, step_fold, ih]

private theorem splitLines_map_fold (ts : List Token) :
    splitLines (ts.map Token.fold) =
      (⟨(splitLines ts).1.tokens.map Token.fold, (splitLines ts).1.stop⟩,
        (splitLines ts).2.map fun line => ⟨line.tokens.map Token.fold, line.stop⟩) := by
  induction ts with
  | nil => rfl
  | cons t ts ih =>
    rw [List.map_cons, splitLines, splitLines, Token.kind_fold, Token.position_fold, ih]
    cases t.kind <;> rfl

/-- The parser makes no difference between tokens in capital and in small letters. -/
theorem parse_map_fold (ts : List Token) : parse (ts.map Token.fold) = parse ts := by
  have hlines : ∀ ls : List Line,
      parseLines (ls.map fun line => ⟨line.tokens.map Token.fold, line.stop⟩) = parseLines ls := by
    intro ls
    induction ls with
    | nil => rfl
    | cons line ls ih =>
      rw [List.map_cons, parseLines, parseLines, ih, Line.parse, Focus.run_fold]
      rfl
  rw [parse, lines, splitLines_map_fold]
  exact hlines (lines ts)

/-! ### Compiling -/

/-- A script in small letters compiles like the script. -/
theorem compile_fold (s : String) : compile (Text.fold s) = compile s := by
  rw [compile, tokenize_fold]
  dsimp only
  rw [parse_map_fold]
  rfl

/-- **Letter case does not matter** to programs or to diagnostics, nor to where these are. -/
theorem compile_eq_of_fold_eq {s t : String} (h : Text.fold s = Text.fold t) :
    compile s = compile t := by
  rw [← compile_fold s, h, compile_fold]

end PointScope.Script
