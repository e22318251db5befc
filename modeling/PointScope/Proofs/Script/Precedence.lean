import PointScope.Proofs.Script.WellFormed

/-!
# Precedence

`Expr.words` writes an expression with parentheses only where the binding powers of the operators
demand them: around a left operand whose operator binds less tightly, around a right operand whose
operator does not bind more tightly, and around an operator between two operands that is itself the
operand of a unary one. The parser reads every text of these words back as the expression, by
itself and behind `name =` (`compile_spaced_words`); nothing is reported but calls of unknown
functions and assignments that store nothing.

What carries the induction is `Expr.Reads`: the words are an expression of operators that bind
tighter than `p` as soon as the outermost operator does.
-/

namespace PointScope.Script

/-! ### Writing with few parentheses -/

/-- How tightly the operator of an expression binds, if it stands between two operands. -/
def Expr.power? : Expr → Option Nat
  | .binary op _ _ => op.infixPower
  | _ => none

/-- Tokens in parentheses where they are demanded. -/
def parenthesizedIf (demanded : Bool) (ts : List Token) : List Token :=
  if demanded then parenthesized ts else ts

mutual

/-- The tokens of an expression with the fewest parentheses. -/
def Expr.words : Expr → List Token
  | .const value => [word .number (NumberText.shortest value)]
  | .var name => [word .name name]
  | .unary op e =>
    word (.operator op.operator) op.symbol :: parenthesizedIf e.power?.isSome e.words
  | .binary op l r =>
    parenthesizedIf (l.power?.any fun q => op.infixPower.any fun p => q < p) l.words ++
      word (.operator op) op.symbol ::
        parenthesizedIf (r.power?.any fun q => op.infixPower.any fun p => q ≤ p) r.words
  | .call name _ args => callWords name (wordsOfArgs args)
  | .assignVar name value => callWords assignName (pairWords [word .name name] value.words)
  | .assignCell bank index value =>
    callWords assignName (pairWords (callWords bank.functionName index.words) value.words)
  | .assignNone target value => callWords assignName (pairWords target.words value.words)

/-- The tokens of arguments with commas between them. -/
def wordsOfArgs : List Expr → List Token
  | [] => []
  | [e] => e.words
  | e :: es => e.words ++ word .comma "," :: wordsOfArgs es

end

/-! ### The words form a phrase -/

private theorem expression_parenthesizedIf {p : Nat} {demanded : Bool} {ts : List Token}
    {x : Checked}
    (hinside : Expression 0 ts x) (hbare : demanded = false → Expression p ts x) :
    Expression p (parenthesizedIf demanded ts) x := by
  cases demanded with
  | false => exact hbare rfl
  | true => exact .operand (operand_parenthesized hinside)

/-- The words of an expression are a phrase that means it. -/
structure Expr.Reads (e : Expr) : Prop where
  /-- They are an operand if no operator stands between two of the operands. -/
  operand : e.power? = none → Operand e.words (e, e.issues)
  /-- They are an expression whose operators bind tighter than any that the outermost one does. -/
  above : ∀ p, (∀ q ∈ e.power?, p < q) → Expression p e.words (e, e.issues)

private theorem Expr.Reads.of_operand {e : Expr} (h : Operand e.words (e, e.issues)) : e.Reads :=
  ⟨fun _ => h, fun _ _ => .operand h⟩

theorem Expr.Reads.expression {e : Expr} (h : e.Reads) :
    Expression 0 e.words (e, e.issues) := by
  refine h.above 0 fun q hq => ?_
  cases e with
  | binary op l r => exact infixPower_pos hq
  | _ => cases hq

/-- The arguments of a call are read in order. -/
private theorem arguments_words {args : List Expr} (hne : args ≠ []) (hargs : ∀ e ∈ args, e.Reads) :
    Arguments (wordsOfArgs args) (args, issuesOfArgs args) := by
  induction args with
  | nil => exact absurd rfl hne
  | cons e es ih =>
    obtain ⟨he, hes⟩ := List.forall_mem_cons.mp hargs
    cases es with
    | nil =>
      rw [issuesOfArgs, issuesOfArgs, List.append_nil]
      exact .one he.expression
    | cons e' es =>
      exact .more he.expression (t := word .comma ",") rfl (ih (List.cons_ne_nil _ _) hes)

/-- The words of a well-formed expression mean it, whatever stands around them. -/
theorem Expr.WellFormed.reads {e : Expr} (he : e.WellFormed) : e.Reads := by
  induction he with
  | const hvalue => exact .of_operand (operand_shortest hvalue)
  | var hname => exact .of_operand hname.operand
  | @unary op e _ ih =>
    refine .of_operand (operand_unary ?_)
    cases hpower : e.power? with
    | none => exact ih.operand hpower
    | some q => exact operand_parenthesized ih.expression
  | @binary op l r hop _ _ ihl ihr =>
    obtain ⟨p, hp⟩ := Option.isSome_iff_exists.mp hop
    refine ⟨fun hnone => absurd (hp.symm.trans hnone) (Option.some_ne_none p), ?_⟩
    intro q hq
    refine expression_binary hp (hq p hp) (expression_parenthesizedIf ihl.expression ?_)
      (expression_parenthesizedIf ihr.expression ?_)
    · -- a left operand without parentheses may bind as tightly as the operator
      intro hbare
      refine ihl.above _ fun q' hq' => ?_
      have hle : p ≤ q' := by simpa [Option.mem_def.mp hq', hp] using hbare
      have := infixPower_pos hp
      omega
    · -- a right operand without parentheses binds tighter
      intro hbare
      refine ihr.above _ fun q' hq' => ?_
      simpa [Option.mem_def.mp hq', hp] using hbare
  | @call name args hname hne _ ih =>
    refine .of_operand ?_
    cases args with
    | nil => exact operand_callWords_nil hname hne
    | cons e es => exact operand_callWords hname hne (arguments_words (List.cons_ne_nil e es) ih)
  | assignVar hname _ ih => exact .of_operand (operand_assignVar ih.expression hname)
  | assignCell _ _ ihi ihv => exact .of_operand (operand_assignCell ihv.expression ihi.expression)
  | assignNone _ hwritable _ iht ihv =>
    exact .of_operand (operand_assignNone ihv.expression iht.expression hwritable)

/-! ### The words are words -/

/-- A token that its own text reads as. -/
def Token.IsWord (t : Token) : Prop := Lexes t.text.toList [t]

private theorem isWord_leftParen : (word .leftParen "(").IsWord := Lexes.nil.leftParen

private theorem isWord_rightParen : (word .rightParen ")").IsWord := Lexes.nil.rightParen

private theorem isWord_comma : (word .comma ",").IsWord := Lexes.nil.comma

private theorem isWord_assign : (word .assign "=").IsWord := Lexes.nil.cons rfl rfl

private theorem isWord_parenthesized {ts : List Token} (hts : ∀ t ∈ ts, t.IsWord) :
    ∀ t ∈ parenthesized ts, t.IsWord := by
  refine List.forall_mem_cons.mpr ⟨isWord_leftParen, List.forall_mem_append.mpr ⟨hts, ?_⟩⟩
  exact List.forall_mem_singleton.mpr isWord_rightParen

private theorem isWord_parenthesizedIf {demanded : Bool} {ts : List Token}
    (hts : ∀ t ∈ ts, t.IsWord) :
    ∀ t ∈ parenthesizedIf demanded ts, t.IsWord := by
  cases demanded with
  | false => exact hts
  | true => exact isWord_parenthesized hts

private theorem isWord_callWords {name : String} {ts : List Token} (hname : IsIdentifier name)
    (hts : ∀ t ∈ ts, t.IsWord) : ∀ t ∈ callWords name ts, t.IsWord :=
  List.forall_mem_cons.mpr ⟨hname.isName.lexes, isWord_parenthesized hts⟩

private theorem isWord_pairWords {ts us : List Token} (hts : ∀ t ∈ ts, t.IsWord)
    (hus : ∀ t ∈ us, t.IsWord) : ∀ t ∈ pairWords ts us, t.IsWord :=
  List.forall_mem_append.mpr ⟨hts, List.forall_mem_cons.mpr ⟨isWord_comma, hus⟩⟩

private theorem isWord_wordsOfArgs {args : List Expr}
    (hargs : ∀ e ∈ args, ∀ t ∈ e.words, t.IsWord) :
    ∀ t ∈ wordsOfArgs args, t.IsWord := by
  induction args with
  | nil => exact fun t ht => absurd ht List.not_mem_nil
  | cons e es ih =>
    obtain ⟨he, hes⟩ := List.forall_mem_cons.mp hargs
    cases es with
    | nil => exact he
    | cons e' es => exact isWord_pairWords he (ih hes)

/-- A well-formed expression is written in words that can stand in a line. -/
theorem Expr.WellFormed.isWord {e : Expr} (he : e.WellFormed) : ∀ t ∈ e.words, t.IsWord := by
  -- one case for each form an expression can have
  induction he with
  | const hvalue => exact List.forall_mem_singleton.mpr (lexes_shortest hvalue)
  | var hname => exact List.forall_mem_singleton.mpr hname.isName.lexes
  | @unary op e _ ih =>
    have hop : (word (.operator op.operator) op.symbol).IsWord := by
      have hsymbol : op.symbol = op.operator.symbol := by cases op <;> rfl
      rw [hsymbol]
      exact Lexes.operator op.operator
    exact List.forall_mem_cons.mpr ⟨hop, isWord_parenthesizedIf ih⟩
  | @binary op _ _ _ _ _ ihl ihr =>
    refine List.forall_mem_append.mpr ⟨isWord_parenthesizedIf ihl, ?_⟩
    exact List.forall_mem_cons.mpr ⟨Lexes.operator op, isWord_parenthesizedIf ihr⟩
  | call hname _ _ ih => exact isWord_callWords hname (isWord_wordsOfArgs ih)
  | assignVar hname _ ih =>
    refine isWord_callWords isIdentifier_assignName (isWord_pairWords ?_ ih)
    exact List.forall_mem_singleton.mpr hname.isName.lexes
  | assignCell _ _ ihi ihv =>
    refine isWord_callWords isIdentifier_assignName (isWord_pairWords ?_ ihv)
    exact isWord_callWords (isIdentifier_functionName _) ihi
  | assignNone _ _ _ iht ihv =>
    exact isWord_callWords isIdentifier_assignName (isWord_pairWords iht ihv)

/-! ### Compiling the words -/

section Compile

variable {e : Expr} (he : e.WellFormed) {text : String}

include he

/-- The words of an expression compile to the expression. -/
theorem Expr.WellFormed.compile_words (htext : Spaced e.words text.toList) :
    (compile text).program.statements = [.expr e] ∧
      (compile text).diagnostics.map (·.issue) = e.issues :=
  (htext.lexes he.isWord).compile_expression he.reads.expression

/-- The words of an expression behind a name and `=` compile to the assignment. -/
theorem Expr.WellFormed.compile_assignment {name : String} (hname : IsName name.toList)
    (htext : Spaced (word .name name :: word .assign "=" :: e.words) text.toList) :
    (compile text).program.statements = [.assign (Text.fold name) e] ∧
      (compile text).diagnostics.map (·.issue) = e.issues := by
  have hlexes : (word .name name).IsWord := by
    have hlexes := Lexes.name hname
    rwa [String.ofList_toList] at hlexes
  have hwords := List.forall_mem_cons.mpr
    ⟨hlexes, List.forall_mem_cons.mpr ⟨isWord_assign, he.isWord⟩⟩
  exact (htext.lexes hwords).compile_assignment rfl rfl he.reads.expression

end Compile

/-- **The parser follows the binding powers.** Every well-formed expression, written with
parentheses only where the binding powers demand them and with blanks between the tokens, compiles
to itself: alone as a statement of its own, and behind a name and `=` as the value that is
assigned. What is reported are the calls of unknown functions in it and the assignments that store
nothing, and nothing else. -/
theorem compile_spaced_words {e : Expr} (he : e.WellFormed) :
    (∀ text : String, Spaced e.words text.toList →
      (compile text).program.statements = [.expr e] ∧
        (compile text).diagnostics.map (·.issue) = e.issues) ∧
    (∀ name text : String, IsName name.toList →
      Spaced (word .name name :: word .assign "=" :: e.words) text.toList →
      (compile text).program.statements = [.assign (Text.fold name) e] ∧
        (compile text).diagnostics.map (·.issue) = e.issues) ∧
    ∀ i ∈ e.issues, i = .unwritableTarget ∨
      ∃ name, i = .unknownFunction name ∧ Builtin.ofName? name = none :=
  ⟨fun _ htext => he.compile_words htext, fun _ _ hname htext => he.compile_assignment hname htext,
    he.mem_issues⟩

/-- A right operand keeps the one pair of parentheses that it needs, and a name its small
letters. -/
theorem compile_spaced_words_minus :
    let e : Expr := .binary .minus (.var "a")
      (.binary .power (.binary .minus (.var "b") (.const 2)) (.const 3))
    e.WellFormed ∧ Spaced e.words "a - ( b - 2 ) ^ 3".toList ∧
      (compile "a - ( b - 2 ) ^ 3").program.statements = [.expr e] ∧
      (compile "$X = a - ( b - 2 ) ^ 3").program.statements = [.assign "$x" e] := by
  intro e
  have ha : IsIdentifier "a" := ⟨⟨_, _, rfl, by decide⟩, by decide +kernel⟩
  have hb : IsIdentifier "b" := ⟨⟨_, _, rfl, by decide⟩, by decide +kernel⟩
  have he : e.WellFormed :=
    .binary rfl (.var ha) (.binary rfl (.binary rfl (.var hb) (.const ⟨_, _, rfl⟩))
      (.const ⟨_, _, rfl⟩))
  have htext : Spaced e.words "a - ( b - 2 ) ^ 3".toList := spaced_intercalate e.words
  have hname : IsName "$X".toList := ⟨_, _, rfl, by decide⟩
  have hassignment : Spaced (word .name "$X" :: word .assign "=" :: e.words)
      "$X = a - ( b - 2 ) ^ 3".toList := spaced_intercalate _
  obtain ⟨halone, hassigned, -⟩ := compile_spaced_words he
  have hfold : Text.fold "$X" = "$x" := by decide +kernel
  exact ⟨he, htext, (halone _ htext).1, hfold ▸ (hassigned "$X" _ hname hassignment).1⟩

/-- An assignment that stores nothing is reported although every call in it is known. -/
theorem compile_discarded_target :
    let e : Expr := .assignNone (.binary .plus (.const 1) (.const 2)) (.const 3)
    e.WellFormed ∧ Spaced e.words "assign ( 1 + 2 , 3 )".toList ∧
      ¬∀ d ∈ (compile "assign ( 1 + 2 , 3 )").diagnostics,
        ∃ name, d.issue = .unknownFunction name := by
  intro e
  have he : e.WellFormed :=
    .assignNone (.binary rfl (.const ⟨_, _, rfl⟩) (.const ⟨_, _, rfl⟩)) rfl (.const ⟨_, _, rfl⟩)
  have htext : Spaced e.words "assign ( 1 + 2 , 3 )".toList := spaced_intercalate e.words
  refine ⟨he, htext, fun h => ?_⟩
  have hissue : Issue.unwritableTarget ∈
      (compile "assign ( 1 + 2 , 3 )").diagnostics.map (·.issue) := by
    rw [(he.compile_words htext).2]
    exact List.mem_cons_self
  obtain ⟨d, hd, hunwritable⟩ := List.mem_map.mp hissue
  obtain ⟨name, hunknown⟩ := h d hd
  exact absurd (hunwritable.symm.trans hunknown) (by simp)

end PointScope.Script
