import PointScope.Proofs.Script.LetterCase
import PointScope.Proofs.Script.WellFormed

/-!
# What is parsed is well formed

What all expressions have that are built from parts that have it, parsing keeps: it holds of the
statements, whatever had to be assumed or dropped for them, if it holds of the operands that single
tokens stand for (`parse_all`). `Builds` says what building means for a property of expressions. The
invariant is `Focus.All`: all that the parser has seen and not finished is made of parts that have
the property. One token preserves it (`Focus.step_all`).

The tokens of a script are sound to begin with (`tokenize_formed`): a number token reads as a number
without a sign, and a name token is a name. So the statements of a script are well formed, provided
that none of its numerals is too large for a number (`compile_wellFormed`).
-/

namespace PointScope.Script

/-! ### Building expressions -/

/-- A property of expressions that whatever the parser builds has if its parts have it. The index of
a cell is taken out of a call, so the arguments of a call have the property if the call has. -/
structure Builds (P : Expr → Prop) : Prop where
  zero : P .zero
  var {name : String} (hname : IsIdentifier name) : P (.var name)
  unary {op : UnaryOp} {e : Expr} (he : P e) : P (.unary op e)
  binary {op : Operator} {l r : Expr} (hop : op.infixPower.isSome) (hl : P l) (hr : P r) :
    P (.binary op l r)
  call {name : String} {args : List Expr} (hname : IsIdentifier name) (hne : name ≠ assignName)
    (hargs : ∀ e ∈ args, P e) : P (.call name (Builtin.ofName? name) args)
  args {name : String} {function : Option Builtin} {args : List Expr}
    (hcall : P (.call name function args)) : ∀ e ∈ args, P e
  assignVar {name : String} {value : Expr} (hname : P (.var name)) (hvalue : P value) :
    P (.assignVar name value)
  assignCell {bank : Bank} {index value : Expr} (hindex : P index) (hvalue : P value) :
    P (.assignCell bank index value)
  assignNone {target value : Expr} (htarget : P target) (hwritable : target.isWritable = false)
    (hvalue : P value) : P (.assignNone target value)

section Resolve

variable {P : Expr → Prop} (hP : Builds P)

include hP

private theorem head?_getD_all {es : List Expr} (hes : ∀ e ∈ es, P e) :
    P (es.head?.getD .zero) := by
  cases es with
  | nil => exact hP.zero
  | cons e es => exact hes e List.mem_cons_self

private theorem assignTo_all {target value : Expr} (htarget : P target) (hvalue : P value) :
    P (target.assignTo value).1 := by
  unfold Expr.assignTo
  split
  · exact hP.assignVar htarget hvalue
  · exact hP.assignCell (head?_getD_all hP (hP.args htarget)) hvalue
  · rename_i hvar hcell
    refine hP.assignNone htarget ?_ hvalue
    unfold Expr.isWritable
    split
    · exact absurd rfl (hvar _)
    · exact absurd rfl (hcell _ _ _)
    · rfl

private theorem assignment_all {args : List Expr} (hargs : ∀ e ∈ args, P e) :
    P (assignment args).1 := by
  cases args with
  | nil => exact hP.zero
  | cons target rest =>
    obtain ⟨htarget, hrest⟩ := List.forall_mem_cons.mp hargs
    exact assignTo_all hP htarget (head?_getD_all hP hrest)

/-- What a call stands for is built, whatever its arguments are. -/
theorem resolveCall_all {name : String} {args : List Expr} (hname : IsIdentifier name)
    (hargs : ∀ e ∈ args, P e) : P (resolveCall name args).1 := by
  unfold resolveCall
  split
  · exact assignment_all hP hargs
  · exact hP.call hname ‹_› hargs

end Resolve

section All

variable (P : Expr → Prop)

/-- A statement with an expression that has the property. -/
def Statement.All : Statement → Prop
  | .assign name value => IsIdentifier name ∧ P value
  | .expr e => P e

/-- Something that waits for an operand, the others of which have the property. -/
def Frame.All : Frame → Prop
  | .right op left => op.infixPower.isSome ∧ P left
  | .unary _ | .group => True
  | .call name args => IsIdentifier name ∧ ∀ e ∈ args, P e

/-- A statement of which all that has been read has the property. -/
structure Context.All (ctx : Context) : Prop where
  target : ∀ name ∈ ctx.target, IsIdentifier name
  frames : ∀ f ∈ ctx.frames, f.All P

/-- A place of the parser where all that it holds has the property. -/
def Focus.All : Focus → Prop
  | .idle => True
  | .operand ctx => ctx.All P
  | .named ctx name => ctx.All P ∧ IsIdentifier name
  | .value ctx e => ctx.All P ∧ P e

/-- A step that finishes statements with the property and leads to a focus with it. -/
structure Step.All (s : Step) : Prop where
  statements : ∀ t ∈ s.statements, t.All P
  focus : s.focus.All P

/-- A token of which an operand with the property can be made. -/
structure Token.Sound (t : Token) : Prop where
  number : t.kind = .number → P (.const ((readDouble? t.text).getD 0))
  name : t.kind = .name → IsIdentifier (Text.fold t.text)

end All

/-! ### What is unfinished -/

section Steps

variable {P : Expr → Prop}

theorem Context.All.empty : Context.All P {} :=
  ⟨fun name h => absurd h (Option.not_mem_none name), fun _ h => absurd h List.not_mem_nil⟩

/-- A frame that is opened is one more. -/
theorem Context.All.push {ctx : Context} (h : ctx.All P) {f : Frame} (hf : f.All P) :
    Context.All P { ctx with frames := f :: ctx.frames } :=
  ⟨h.target, List.forall_mem_cons.mpr ⟨hf, h.frames⟩⟩

/-- Fewer frames, or others that have the property, do no harm. -/
private theorem Context.All.withFrames {ctx : Context} (h : ctx.All P) {fs : List Frame}
    (hfs : ∀ f ∈ fs, f.All P) : Context.All P { ctx with frames := fs } :=
  ⟨h.target, hfs⟩

/-- A step without statements has the property if its focus has. -/
private theorem Step.All.of_focus {focus : Focus} (h : focus.All P) : Step.All P { focus } :=
  ⟨fun _ h => absurd h List.not_mem_nil, h⟩

/-- Diagnostics do not matter to what is built. -/
theorem Step.All.report {s : Step} (h : s.All P) (issues : List Issue) (p : Position) :
    (s.report issues p).All P := ⟨h.statements, h.focus⟩

/-- A statement is ended with the expression that was read. -/
theorem Context.All.statement {ctx : Context} (h : ctx.All P) {e : Expr} (he : P e) :
    (ctx.statement e).All P := by
  unfold Context.statement
  split
  · exact ⟨h.target _ ‹_›, he⟩
  · exact he

variable (hP : Builds P)

include hP

private theorem Frame.complete_all {f : Frame} {e : Expr} (hf : f.All P) (he : P e) :
    P (f.complete e).1 := by
  cases f with
  | right op left => exact hP.binary hf.1 hf.2 he
  | unary op => exact hP.unary he
  | group => exact he
  | call name args =>
    refine resolveCall_all hP hf.1 (List.forall_mem_append.mpr ⟨hf.2, ?_⟩)
    exact List.forall_mem_singleton.mpr he

/-- Completing frames builds of what they hold. -/
private theorem settle_all (staysOpen : Frame → Bool) {fs : List Frame} {e : Expr}
    (hfs : ∀ f ∈ fs, f.All P) (he : P e) :
    (∀ f ∈ (settle staysOpen fs e).1, f.All P) ∧ P (settle staysOpen fs e).2.1 := by
  induction fs generalizing e with
  | nil => exact ⟨hfs, he⟩
  | cons f fs ih =>
    rw [settle]
    split
    · exact ⟨hfs, he⟩
    · obtain ⟨hf, hfs⟩ := List.forall_mem_cons.mp hfs
      exact ih hfs (Frame.complete_all hP hf he)

/-! ### One token -/

variable {ctx : Context} (hctx : ctx.All P) {t : Token} (ht : t.Sound P) (next : Position)

include ht in
private theorem startOperand_all (hctx : ctx.All P) {s : Step}
    (hs : startOperand ctx t next = some s) :
    s.All P := by
  unfold startOperand at hs
  split at hs
  · cases hs
    exact .of_focus ⟨hctx, ht.number ‹_›⟩
  · cases hs
    exact .of_focus ⟨hctx, ht.name ‹_›⟩
  · cases hs
    exact .of_focus (hctx.push trivial)
  · split at hs
    · cases hs
      exact .of_focus (hctx.push trivial)
    · cases hs
      have hzero : Focus.All P (.value ctx .zero) := ⟨hctx, hP.zero⟩
      exact (Step.All.of_focus hzero).report _ _
  · cases hs

include ht in
private theorem stepIdle_all : (stepIdle t next).All P := by
  unfold stepIdle
  split
  · exact startOperand_all hP ht next .empty ‹_›
  · have hidle : Focus.All P .idle := trivial
    exact (Step.All.of_focus hidle).report _ _

include hctx in
private theorem closeCall_all {name : String} {args : List Expr} (hname : IsIdentifier name)
    (hargs : ∀ e ∈ args, P e) : (closeCall ctx name args next).All P := by
  have hvalue : Focus.All P (.value ctx (resolveCall name args).1) :=
    ⟨hctx, resolveCall_all hP hname hargs⟩
  exact (Step.All.of_focus hvalue).report _ _

include hctx in
private theorem continueValue_all {e : Expr} (he : P e) {kind : TokenKind} {s : Step}
    (hs : continueValue ctx e kind next = some s) : s.All P := by
  unfold continueValue at hs
  have hmore {name : String} {args : List Expr} (h : (Frame.call name args).All P) :
      ∀ a ∈ args ++ [e], P a :=
    List.forall_mem_append.mpr ⟨h.2, List.forall_mem_singleton.mpr he⟩
  split at hs
  · split at hs
    · cases hs
      exact .of_focus (hctx.push ⟨‹_›, he⟩)
    · cases hs
  · -- the frames around the one that is closed had the property before
    cases hs
    obtain ⟨-, houter⟩ := List.forall_mem_cons.mp (‹ctx.frames = _› ▸ hctx.frames)
    exact .of_focus ⟨hctx.withFrames houter, he⟩
  · cases hs
    obtain ⟨hcall, houter⟩ := List.forall_mem_cons.mp (‹ctx.frames = _› ▸ hctx.frames)
    exact closeCall_all hP (hctx.withFrames houter) next hcall.1 (hmore hcall)
  · cases hs
    obtain ⟨hcall, houter⟩ := List.forall_mem_cons.mp (‹ctx.frames = _› ▸ hctx.frames)
    exact .of_focus ((hctx.withFrames houter).push ⟨hcall.1, hmore hcall⟩)
  · cases hs

include ht in
private theorem endStatement_all {statement : Statement} (hstatement : statement.All P) :
    (endStatement statement t next).All P := by
  obtain ⟨hstatements, hfocus⟩ := stepIdle_all hP ht next
  exact ⟨List.forall_mem_cons.mpr ⟨hstatement, hstatements⟩, hfocus⟩

include hctx ht in
private theorem stepValue_all {e : Expr} (he : P e) : (stepValue ctx e t next).All P := by
  obtain ⟨hframes, he⟩ := settle_all hP (Frame.staysOpen t.kind) hctx.frames he
  refine Step.All.report ?_ _ _
  cases hcontinue : continueValue { ctx with frames := _ } _ t.kind next with
  | some s => exact continueValue_all hP (hctx.withFrames hframes) next he hcontinue
  | none => exact endStatement_all hP ht next (hctx.statement he)

include hctx ht in
private theorem stepOperand_all : (stepOperand ctx t next).All P := by
  unfold stepOperand
  split
  · obtain ⟨hcall, houter⟩ := List.forall_mem_cons.mp (‹ctx.frames = _› ▸ hctx.frames)
    exact closeCall_all hP (hctx.withFrames houter) next hcall.1 hcall.2
  · split
    · exact startOperand_all hP ht next hctx ‹_›
    · exact (stepValue_all hP hctx ht next hP.zero).report _ _

include hctx ht in
private theorem stepNamed_all {name : String} (hname : IsIdentifier name) :
    (stepNamed ctx name t next).All P := by
  unfold stepNamed
  split
  · exact .of_focus (hctx.push ⟨hname, fun _ h => absurd h List.not_mem_nil⟩)
  · refine .of_focus ⟨?_, fun _ h => absurd h List.not_mem_nil⟩
    rintro name ⟨⟩
    exact hname
  · exact stepValue_all hP hctx ht next (hP.var hname)

/-- **A token keeps what building keeps**, and the statements that it finishes have it. -/
theorem Focus.step_all {focus : Focus} (hfocus : focus.All P) {t : Token} (ht : t.Sound P)
    (next : Position) : (focus.step t next).All P := by
  cases focus with
  | idle => exact stepIdle_all hP ht next
  | operand ctx => exact stepOperand_all hP hfocus ht next
  | named ctx name => exact stepNamed_all hP hfocus.1 ht next hfocus.2
  | value ctx e => exact stepValue_all hP hfocus.1 ht next hfocus.2

end Steps

/-! ### Lines and scripts -/

/-- The lines of a script have no other tokens than the script. -/
private theorem mem_of_mem_lines {tokens : List Token} {line : Line} (hline : line ∈ lines tokens) :
    ∀ t ∈ line.tokens, t ∈ tokens := by
  induction tokens generalizing line with
  | nil =>
    obtain rfl := List.mem_singleton.mp hline
    exact fun _ h => h
  | cons u us ih =>
    have htail : ∀ l ∈ lines us, ∀ t ∈ l.tokens, t ∈ u :: us :=
      fun l hl t ht => List.mem_cons_of_mem u (ih hl t ht)
    obtain ⟨hfirst, hrest⟩ := List.forall_mem_cons.mp htail
    -- a separator opens a line, any other token joins the first one
    have hall : ∀ l ∈ lines (u :: us), ∀ t ∈ l.tokens, t ∈ u :: us := by
      change ∀ l ∈ (splitLines (u :: us)).1 :: (splitLines (u :: us)).2, _
      rw [splitLines]
      split
      · simp
      · exact List.forall_mem_cons.mpr ⟨by simp, List.forall_mem_cons.mpr ⟨hfirst, hrest⟩⟩
      · refine List.forall_mem_cons.mpr ⟨?_, hrest⟩
        exact List.forall_mem_cons.mpr ⟨List.mem_cons_self, hfirst⟩
    exact hall line hline

section Runs

variable {P : Expr → Prop} (hP : Builds P) {stop : Position}

include hP

private theorem Focus.finish_all {focus : Focus} (hfocus : focus.All P) :
    ∀ s ∈ (focus.finish stop).statements, s.All P := by
  have hvalue : ∀ {ctx : Context} {e : Expr}, ctx.All P → P e →
      ∀ s ∈ (finishValue ctx e stop).statements, s.All P := by
    intro ctx e hctx he
    obtain ⟨-, he⟩ := settle_all hP (fun _ => false) hctx.frames he
    exact List.forall_mem_singleton.mpr (hctx.statement he)
  cases focus with
  | idle => exact fun _ h => absurd h List.not_mem_nil
  | operand ctx => exact hvalue hfocus hP.zero
  | named ctx name => exact hvalue hfocus.1 (hP.var hfocus.2)
  | value ctx e => exact hvalue hfocus.1 hfocus.2

/-- The statements of a line are built of its tokens and of what was open before. -/
private theorem Focus.run_all {focus : Focus} (hfocus : focus.All P) {ts : List Token}
    (hts : ∀ t ∈ ts, t.Sound P) : ∀ s ∈ (focus.run stop ts).statements, s.All P := by
  induction ts generalizing focus with
  | nil => exact Focus.finish_all hP hfocus
  | cons t ts ih =>
    obtain ⟨ht, hts⟩ := List.forall_mem_cons.mp hts
    obtain ⟨hstatements, hnext⟩ := Focus.step_all hP hfocus ht (nextPosition ts stop)
    exact List.forall_mem_append.mpr ⟨hstatements, ih hnext hts⟩

private theorem parseLines_all {ls : List Line} (hls : ∀ l ∈ ls, ∀ t ∈ l.tokens, t.Sound P) :
    ∀ s ∈ (parseLines ls).statements, s.All P := by
  induction ls with
  | nil => exact fun _ h => absurd h List.not_mem_nil
  | cons l ls ih =>
    obtain ⟨hl, hls⟩ := List.forall_mem_cons.mp hls
    have hidle : Focus.All P .idle := trivial
    exact List.forall_mem_append.mpr ⟨Focus.run_all hP hidle hl, ih hls⟩

/-- **Parsing keeps what building keeps**: sound tokens are parsed to statements with the
property. -/
theorem parse_all {tokens : List Token} (htokens : ∀ t ∈ tokens, t.Sound P) :
    ∀ s ∈ (parse tokens).statements, s.All P :=
  parseLines_all hP fun _ hl t ht => htokens t (mem_of_mem_lines hl t ht)

end Runs

/-! ### The tokens of a script -/

/-- A piece that is a number or a name has the characters of one. -/
def Piece.Formed : Piece → Prop
  | .lexeme .number text => text.any Char.isDigit = true ∧ text.all isNumberPart = true
  | .lexeme .name text => IsName text
  | _ => True

private theorem punctuation?_formed {c : Char} {cs text : List Char} {kind : TokenKind}
    (h : punctuation? c cs = some kind) : (Piece.lexeme kind text).Formed := by
  unfold punctuation? at h
  repeat' split at h
  all_goals cases h
  all_goals trivial

/-- A piece is formed as its kind asks. -/
private theorem firstPiece_formed (c : Char) (cs : List Char) : (firstPiece c cs).1.Formed := by
  unfold firstPiece
  split
  · exact trivial
  split
  · rename_i hstart
    refine ⟨?_, ?_⟩
    · -- the digit is the first character, or the second one behind a point
      rw [startsNumber, Bool.or_eq_true, Bool.and_eq_true] at hstart
      rcases hstart with hc | ⟨-, hnext⟩
      · rw [List.any_cons, hc, Bool.true_or]
      · cases cs with
        | nil => cases hnext
        | cons d ds =>
          have hd : d.isDigit = true := hnext
          simp [isNumberPart, hd]
    · rw [List.all_cons, isNumberPart_of_startsNumber hstart, Bool.true_and]
      exact List.all_takeWhile
  split
  · exact ⟨c, _, rfl, ‹_›, List.all_takeWhile⟩
  split
  · exact punctuation?_formed ‹_›
  split <;> exact trivial

private theorem pieces_formed (cs : List Char) : ∀ piece ∈ pieces cs, piece.Formed := by
  induction cs using pieces.induct with
  | case1 => simp [pieces]
  | case2 c cs ih =>
    rw [pieces]
    exact List.forall_mem_cons.mpr ⟨firstPiece_formed c cs, ih⟩

/-- A name in small letters is an identifier. -/
private theorem isIdentifier_fold {text : List Char} (h : IsName text) :
    IsIdentifier (Text.fold (String.ofList text)) := by
  obtain ⟨c, rest, rfl, hc, hrest⟩ := h
  refine ⟨⟨c.toLower, rest.map Char.toLower, ?_,
    (isNameStart_toLower c).trans hc, ?_⟩, ?_⟩
  · rw [Text.toList_fold, String.toList_ofList, List.map_cons]
  · rw [List.all_map]
    rw [List.all_eq_true] at hrest ⊢
    exact fun d hd => (isNamePart_toLower d).trans (hrest d hd)
  · exact Text.fold_fold _

/-- A token that reads as a number without a sign, or as a name. -/
structure Token.Formed (t : Token) : Prop where
  number : t.kind = .number → Binary64.IsUnsigned ((readDouble? t.text).getD 0).toModel.unpack
  name : t.kind = .name → IsIdentifier (Text.fold t.text)

private theorem token?_formed {piece : Piece} (hpiece : piece.Formed) {p : Position} {t : Token}
    (ht : piece.token? p = some t) : t.Formed := by
  cases piece with
  | blank | stray => cases ht
  | lexeme kind text =>
    obtain rfl := Option.some.inj ht
    constructor
    · rintro rfl
      dsimp only
      split
      · -- a malformed numeral is read as `0`
        exact Binary64.isUnsigned_zero
      · rename_i hformed
        have hcount : text.count '.' ≤ 1 := by
          simpa [Piece.isMalformedNumber] using hformed
        obtain ⟨x, hx, hunsigned⟩ := readDouble?_numeral hpiece.1 hpiece.2 hcount
        rwa [hx, Option.getD_some]
    · rintro rfl
      exact isIdentifier_fold hpiece

/-- **Every token of a script is formed** as its kind asks. -/
theorem tokenize_formed (source : String) : ∀ t ∈ (tokenize source).tokens, t.Formed := by
  intro t ht
  rcases List.mem_append.mp ht with hplaced | hend
  · obtain ⟨⟨p, piece⟩, hmem, htoken⟩ := List.mem_filterMap.mp hplaced
    exact token?_formed (pieces_formed _ piece (mem_of_mem_place hmem)) htoken
  · obtain rfl := List.mem_singleton.mp hend
    constructor <;> rintro ⟨⟩

/-- The statements of a script have what building keeps if its numerals have it; its names are
names already. -/
theorem compile_all {P : Expr → Prop} (hP : Builds P) {source : String}
    (hnumber : ∀ t ∈ (tokenize source).tokens, t.kind = .number →
      P (.const ((readDouble? t.text).getD 0))) :
    ∀ s ∈ (compile source).program.statements, s.All P := by
  rw [statements_compile]
  exact parse_all hP fun t ht => ⟨hnumber t ht, (tokenize_formed source t ht).name⟩

/-! ### Well-formed scripts -/

private theorem isMagnitude_zero : Binary64.IsMagnitude 0 := ⟨0, 0, rfl⟩

/-- A well-formed expression is exactly one that is built of well-formed parts. -/
theorem builds_wellFormed : Builds Expr.WellFormed where
  zero := .const isMagnitude_zero
  var := .var
  unary := .unary
  binary := .binary
  call := .call
  args hcall := by
    cases hcall with
    | call _ _ hargs => exact hargs
  assignVar hvar hvalue := by
    cases hvar with
    | var hname => exact .assignVar hname hvalue
  assignCell := .assignCell
  assignNone := .assignNone

/-- A statement whose expressions are well formed is well formed. -/
theorem Statement.All.wellFormed {s : Statement} (h : s.All Expr.WellFormed) : s.WellFormed := by
  cases s with
  | assign name value => exact .assign h.1 h.2
  | expr e => exact .expr h

/-- Every numeral of a script is small enough to be a finite number. -/
def ReadsFinitely (source : String) : Prop :=
  ∀ t ∈ (tokenize source).tokens, t.kind = .number →
    ∀ x ∈ readDouble? t.text, x.isInf = false

instance (source : String) : Decidable (ReadsFinitely source) :=
  inferInstanceAs (Decidable (∀ t ∈ (tokenize source).tokens, t.kind = .number →
    ∀ x ∈ readDouble? t.text, x.isInf = false))

/-- **Whatever a script looks like**, its statements are well formed if its numerals are finite. -/
theorem compile_wellFormed {source : String} (hsource : ReadsFinitely source) :
    ∀ s ∈ (compile source).program.statements, s.WellFormed := by
  refine fun s hs => (compile_all builds_wellFormed (fun t ht hkind => .const ?_) s hs).wellFormed
  have hunsigned := (tokenize_formed source t ht).number hkind
  cases hread : readDouble? t.text with
  | none => exact isMagnitude_zero
  | some x =>
    rw [hread] at hunsigned
    exact isMagnitude_of_isUnsigned hunsigned (hsource t ht hkind x hread)

end PointScope.Script
