import PointScope.Proofs.Script.Lines

/-!
# The grammar of expressions

Operands and expressions, as relations between a list of tokens and the expression that it means.
An `Expression p` joins its operands by operators that bind tighter than `p`; of two operators
that bind equally tightly the left one groups first. Beside the expression each phrase carries
what is wrong with the calls in it, in the order in which the calls end.

The parser reads every phrase of the grammar as the expression that the phrase means, and reports
nothing else: behind the tokens of a phrase it stands behind an operand (`Operand.run`,
`Expression.run`). What has to be excluded is a token after the phrase that would still belong to
it; `Closes` says which tokens do not.
-/

namespace PointScope.Script

mutual

/-- An operand: what a unary operator applies to, and what stands between two operators. -/
inductive Operand : List Token → Checked → Prop
  | number {t : Token} (ht : t.kind = .number) :
      Operand [t] (.const ((readDouble? t.text).getD 0), [])
  | variable {t : Token} (ht : t.kind = .name) : Operand [t] (.var (Text.fold t.text), [])
  | unary {t : Token} {op : Operator} {u : UnaryOp} {ts : List Token} {x : Checked}
      (ht : t.kind = .operator op) (hop : op.unary? = some u) (hx : Operand ts x) :
      Operand (t :: ts) (.unary u x.1, x.2)
  | group {l r : Token} {ts : List Token} {x : Checked} (hl : l.kind = .leftParen)
      (hx : Expression 0 ts x) (hr : r.kind = .rightParen) : Operand (l :: (ts ++ [r])) x
  | callNone {f l r : Token} (hf : f.kind = .name) (hl : l.kind = .leftParen)
      (hr : r.kind = .rightParen) : Operand [f, l, r] (resolveCall (Text.fold f.text) [])
  | call {f l r : Token} {ts : List Token} {xs : List Expr × List Issue} (hf : f.kind = .name)
      (hl : l.kind = .leftParen) (hxs : Arguments ts xs) (hr : r.kind = .rightParen) :
      Operand (f :: l :: (ts ++ [r]))
        ((resolveCall (Text.fold f.text) xs.1).1, xs.2 ++ (resolveCall (Text.fold f.text) xs.1).2)

/-- Operands joined by operators that bind tighter than `p`. -/
inductive Expression : Nat → List Token → Checked → Prop
  | operand {p : Nat} {ts : List Token} {x : Checked} (hx : Operand ts x) : Expression p ts x
  | binary {p q : Nat} {t : Token} {op : Operator} {ls rs : List Token} {x y : Checked}
      (ht : t.kind = .operator op) (hop : op.infixPower = some q) (hq : p < q)
      (hx : Expression (q - 1) ls x) (hy : Expression q rs y) :
      Expression p (ls ++ t :: rs) (.binary op x.1 y.1, x.2 ++ y.2)

/-- The arguments of a call, at least one, with commas between them. -/
inductive Arguments : List Token → List Expr × List Issue → Prop
  | one {ts : List Token} {x : Checked} (hx : Expression 0 ts x) : Arguments ts ([x.1], x.2)
  | more {t : Token} {ts us : List Token} {x : Checked} {xs : List Expr × List Issue}
      (hx : Expression 0 ts x) (ht : t.kind = .comma) (hxs : Arguments us xs) :
      Arguments (ts ++ t :: us) (x.1 :: xs.1, x.2 ++ xs.2)

end

/-! ### What may follow a phrase -/

/-- Every operator between operands binds more tightly than a whole expression has to. -/
theorem infixPower_pos {op : Operator} {p : Nat} (h : op.infixPower = some p) : 0 < p := by
  cases op <;> cases h <;> decide

/-- Tokens that do not go on with a name in front of them. -/
def Clear (rest : List Token) : Prop :=
  ∀ t ∈ rest.head?, t.kind ≠ .leftParen ∧ t.kind ≠ .assign

/-- Tokens that do not go on with an expression whose operators bind tighter than `p`. -/
def Closes (p : Nat) (rest : List Token) : Prop :=
  Clear rest ∧ ∀ t ∈ rest.head?, ∀ op q, t.kind = .operator op → op.infixPower = some q → q ≤ p + 1

theorem clear_cons {t : Token} {ts : List Token} (hleft : t.kind ≠ .leftParen)
    (hassign : t.kind ≠ .assign) : Clear (t :: ts) := by
  rintro t ⟨⟩
  exact ⟨hleft, hassign⟩

private theorem closes_nil (p : Nat) : Closes p [] := by
  constructor <;> rintro t ⟨⟩

/-- An operator that binds no more tightly ends an expression. -/
private theorem closes_operator {p q : Nat} {t : Token} {ts : List Token} {op : Operator}
    (ht : t.kind = .operator op) (hop : op.infixPower = some q) (hq : q ≤ p + 1) :
    Closes p (t :: ts) := by
  refine ⟨clear_cons (by simp [ht]) (by simp [ht]), ?_⟩
  rintro t ⟨⟩ op' q' ht' hop'
  obtain rfl : op = op' := TokenKind.operator.inj (ht.symm.trans ht')
  obtain rfl : q = q' := Option.some.inj (hop.symm.trans hop')
  exact hq

private theorem closes_rightParen {p : Nat} {t : Token} {ts : List Token}
    (ht : t.kind = .rightParen) :
    Closes p (t :: ts) := by
  refine ⟨clear_cons (by simp [ht]) (by simp [ht]), ?_⟩
  rintro t ⟨⟩ op q hop
  exact absurd (ht.symm.trans hop) (by simp)

private theorem closes_comma {p : Nat} {t : Token} {ts : List Token} (ht : t.kind = .comma) :
    Closes p (t :: ts) := by
  refine ⟨clear_cons (by simp [ht]) (by simp [ht]), ?_⟩
  rintro t ⟨⟩ op q hop
  exact absurd (ht.symm.trans hop) (by simp)

/-- Tokens that end an expression end one of tighter operators too. -/
theorem Closes.mono {p q : Nat} {rest : List Token} (h : Closes p rest) (hpq : p ≤ q) :
    Closes q rest :=
  ⟨h.1, fun t ht op r hop hr => Nat.le_trans (h.2 t ht op r hop hr) (Nat.succ_le_succ hpq)⟩

/-- Frames that a token which ends an expression above `p` cannot complete. -/
def Admits (p : Nat) (fs : List Frame) : Prop :=
  ∀ f ∈ fs.head?, ∀ op q, op.infixPower = some q → p < q → f.staysOpen (.operator op) = true

theorem admits_nil (p : Nat) : Admits p [] := by
  rintro f ⟨⟩

theorem admits_group (p : Nat) (fs : List Frame) : Admits p (.group :: fs) := by
  rintro f ⟨⟩ op q hop -
  simp [Frame.staysOpen, hop]

theorem admits_call (p : Nat) (name : String) (args : List Expr) (fs : List Frame) :
    Admits p (.call name args :: fs) := by
  rintro f ⟨⟩ op q hop -
  simp [Frame.staysOpen, hop]

theorem admits_right {q : Nat} {op : Operator} (hop : op.infixPower = some q) (left : Expr)
    (fs : List Frame) : Admits q (.right op left :: fs) := by
  rintro f ⟨⟩ op' q' hop' hq
  simp [Frame.staysOpen, hop, hop', hq]

/-- Frames that admit an operator admit tighter ones too. -/
theorem Admits.mono {p q : Nat} {fs : List Frame} (h : Admits p fs) (hpq : p ≤ q) :
    Admits q fs :=
  fun f hf op r hop hr => h f hf op r hop (Nat.lt_of_le_of_lt hpq hr)

/-- No operator binds tighter than a unary one. -/
theorem staysOpen_unary (kind : TokenKind) (u : UnaryOp) :
    (Frame.unary u).staysOpen kind = false := by
  cases kind with
  | operator op => cases op <;> rfl
  | _ => rfl

/-- An operator waits for nothing more when its right operand has ended. -/
theorem staysOpen_right {p q : Nat} {op : Operator} {left : Expr} {rest : List Token}
    (hop : op.infixPower = some q) (hq : p < q) (hrest : Closes p rest) :
    ∀ t ∈ rest.head?, (Frame.right op left).staysOpen t.kind = false := by
  intro t ht
  cases hkind : t.kind with
  | operator op' =>
    cases hop' : op'.infixPower with
    | none => simp [Frame.staysOpen, hop']
    | some q' =>
      have hle := hrest.2 t ht op' q' hkind hop'
      simp [Frame.staysOpen, hop, hop']
      omega
  | _ => rfl

/-! ### Runs that only report -/

/-- The parsed text `a` is `b` with issues `is` reported before it. -/
def Reports (is : List Issue) (a b : Parsed) : Prop :=
  ∃ ds : List Diagnostic, ds.map (·.issue) = is ∧ a = ⟨[], ds⟩ ++ b

private theorem Reports.of_eq {a b : Parsed} (h : a = b) : Reports [] a b := ⟨[], rfl, h⟩

/-- Issues of two stretches add up. -/
theorem Reports.trans {is js : List Issue} {a b c : Parsed} (hab : Reports is a b)
    (hbc : Reports js b c) : Reports (is ++ js) a c := by
  obtain ⟨ds, rfl, rfl⟩ := hab
  obtain ⟨es, rfl, rfl⟩ := hbc
  exact ⟨ds ++ es, List.map_append, (Parsed.append_assoc ⟨[], ds⟩ ⟨[], es⟩ c).symm⟩

theorem Reports.of_eq_trans {is : List Issue} {a b c : Parsed} (hab : a = b)
    (hbc : Reports is b c) : Reports is a c := hab ▸ hbc

theorem Reports.trans_eq {is : List Issue} {a b c : Parsed} (hab : Reports is a b)
    (hbc : b = c) : Reports is a c := hbc ▸ hab

/-! ### Single steps -/

section Steps

variable {stop : Position} {ctx : Context} {rest : List Token}

/-- A name with nothing after it that goes on with it is a variable. -/
theorem run_named {name : String} (hrest : Clear rest) :
    (Focus.named ctx name).run stop rest = (Focus.value ctx (.var name)).run stop rest := by
  cases rest with
  | nil => rfl
  | cons t ts =>
    obtain ⟨hleft, hassign⟩ := hrest t rfl
    rw [Focus.run, Focus.run]
    have hstep : ∀ next, stepNamed ctx name t next = stepValue ctx (.var name) t next := by
      intro next
      unfold stepNamed
      split
      · exact absurd ‹t.kind = .leftParen› hleft
      · exact absurd ‹t.kind = .assign› hassign
      · rfl
    simp only [Focus.step, hstep]

/-- A frame that does not stay open is completed at once. -/
theorem run_value_complete {f : Frame} {fs : List Frame} {e e' : Expr} {target : Option String}
    (hrest : ∀ t ∈ rest.head?, f.staysOpen t.kind = false) (hcomplete : f.complete e = (e', [])) :
    (Focus.value ⟨target, f :: fs⟩ e).run stop rest =
      (Focus.value ⟨target, fs⟩ e').run stop rest := by
  cases rest with
  | nil => simp [Focus.run, Focus.finish, finishValue, settle, hcomplete, Context.statement]
  | cons t ts =>
    have hopen := hrest t rfl
    have hstep : ∀ next,
        stepValue ⟨target, f :: fs⟩ e t next = stepValue ⟨target, fs⟩ e' t next := by
      intro next
      simp [stepValue, settle, hopen, hcomplete, Context.statement]
    rw [Focus.run, Focus.run]
    simp only [Focus.step, hstep]

/-- A numeral is an operand. -/
theorem run_operand_number {t : Token} (ht : t.kind = .number) :
    (Focus.operand ctx).run stop (t :: rest) =
      (Focus.value ctx (.const ((readDouble? t.text).getD 0))).run stop rest := by
  rw [Focus.run, Focus.step, stepOperand]
  simp only [ht, startOperand]
  rfl

/-- A name is read; what follows decides what it stands for. -/
theorem run_operand_name {t : Token} (ht : t.kind = .name) :
    (Focus.operand ctx).run stop (t :: rest) =
      (Focus.named ctx (Text.fold t.text)).run stop rest := by
  rw [Focus.run, Focus.step, stepOperand]
  simp only [ht, startOperand]
  rfl

/-- An operator before its operand opens a frame. -/
theorem run_operand_unary {t : Token} {op : Operator} {u : UnaryOp} (ht : t.kind = .operator op)
    (hop : op.unary? = some u) :
    (Focus.operand ctx).run stop (t :: rest) =
      (Focus.operand { ctx with frames := .unary u :: ctx.frames }).run stop rest := by
  rw [Focus.run, Focus.step, stepOperand]
  simp only [ht, hop, startOperand]
  rfl

/-- A parenthesis opens a group. -/
theorem run_operand_leftParen {t : Token} (ht : t.kind = .leftParen) :
    (Focus.operand ctx).run stop (t :: rest) =
      (Focus.operand { ctx with frames := .group :: ctx.frames }).run stop rest := by
  rw [Focus.run, Focus.step, stepOperand]
  simp only [ht, startOperand]
  rfl

/-- A parenthesis behind a name opens a call. -/
theorem run_named_leftParen {t : Token} {name : String} (ht : t.kind = .leftParen) :
    (Focus.named ctx name).run stop (t :: rest) =
      (Focus.operand { ctx with frames := .call name [] :: ctx.frames }).run stop rest := by
  rw [Focus.run, Focus.step]
  have hstep : ∀ next, stepNamed ctx name t next =
      { focus := .operand { ctx with frames := .call name [] :: ctx.frames } } := by
    intro next
    simp only [stepNamed, ht]
  rw [hstep]
  rfl

/-- An equals sign behind the first name of a line makes it the target. -/
theorem run_named_assign {t : Token} {name : String} (ht : t.kind = .assign) :
    (Focus.named {} name).run stop (t :: rest) = (Focus.operand ⟨some name, []⟩).run stop rest := by
  have hstep : ∀ next, stepNamed {} name t next = { focus := .operand ⟨some name, []⟩ } := by
    intro next
    simp only [stepNamed, ht]
  rw [Focus.run, Focus.step, hstep]
  rfl

/-- An operator that the innermost frame is open for takes the left operand. -/
theorem run_value_operator {t : Token} {op : Operator} {q : Nat} {e : Expr}
    (ht : t.kind = .operator op) (hop : op.infixPower = some q)
    (hopen : ∀ f ∈ ctx.frames.head?, f.staysOpen (.operator op) = true) :
    (Focus.value ctx e).run stop (t :: rest) =
      (Focus.operand { ctx with frames := .right op e :: ctx.frames }).run stop rest := by
  have hsettle : settle (Frame.staysOpen (.operator op)) ctx.frames e = (ctx.frames, e, []) := by
    cases hframes : ctx.frames with
    | nil => rfl
    | cons f fs => rw [settle, if_pos (hopen f (by rw [hframes]; rfl))]
  rw [Focus.run, Focus.step, stepValue]
  simp only [ht, hsettle, continueValue, hop, Option.isSome_some, if_true]
  rfl

/-- A closing parenthesis ends a group. -/
theorem run_value_rightParen {t : Token} {target : Option String} {fs : List Frame} {e : Expr}
    (ht : t.kind = .rightParen) :
    (Focus.value ⟨target, .group :: fs⟩ e).run stop (t :: rest) =
      (Focus.value ⟨target, fs⟩ e).run stop rest := by
  rw [Focus.run, Focus.step, stepValue]
  simp only [ht, settle, Frame.staysOpen, if_true, continueValue]
  rfl

/-- A comma ends an argument. -/
theorem run_value_comma {t : Token} {target : Option String} {fs : List Frame} {e : Expr}
    {name : String} {args : List Expr} (ht : t.kind = .comma) :
    (Focus.value ⟨target, .call name args :: fs⟩ e).run stop (t :: rest) =
      (Focus.operand ⟨target, .call name (args ++ [e]) :: fs⟩).run stop rest := by
  rw [Focus.run, Focus.step, stepValue]
  simp only [ht, settle, Frame.staysOpen, if_true, continueValue]
  rfl

/-- A call that is closed is resolved, and what is wrong with it is reported. -/
private theorem closeCall_run {name : String} {args : List Expr} (next : Position) :
    Reports (resolveCall name args).2
      (⟨(closeCall ctx name args next).statements, (closeCall ctx name args next).diagnostics⟩ ++
        (closeCall ctx name args next).focus.run stop rest)
      ((Focus.value ctx (resolveCall name args).1).run stop rest) :=
  ⟨(resolveCall name args).2.map (⟨·, next⟩), by rw [List.map_map]; exact List.map_id _,
    by simp [closeCall, Step.report]⟩

/-- A closing parenthesis ends a call behind its last argument, and the call is looked up. -/
theorem run_value_closeCall {t : Token} {target : Option String} {fs : List Frame} {e : Expr}
    {name : String} {args : List Expr} (ht : t.kind = .rightParen) :
    Reports (resolveCall name (args ++ [e])).2
      ((Focus.value ⟨target, .call name args :: fs⟩ e).run stop (t :: rest))
      ((Focus.value ⟨target, fs⟩ (resolveCall name (args ++ [e])).1).run stop rest) := by
  refine Reports.of_eq_trans ?_ (closeCall_run (nextPosition rest stop))
  rw [Focus.run, Focus.step, stepValue]
  simp only [ht, settle, Frame.staysOpen, if_true, continueValue]
  rfl

/-- A closing parenthesis ends a call that has no arguments. -/
theorem run_operand_closeCall {t : Token} {target : Option String} {fs : List Frame}
    {name : String} (ht : t.kind = .rightParen) :
    Reports (resolveCall name []).2
      ((Focus.operand ⟨target, .call name [] :: fs⟩).run stop (t :: rest))
      ((Focus.value ⟨target, fs⟩ (resolveCall name []).1).run stop rest) := by
  refine Reports.of_eq_trans ?_ (closeCall_run (nextPosition rest stop))
  rw [Focus.run, Focus.step, stepOperand]
  simp only [ht]

end Steps

/-! ### The parser reads the grammar -/

section Reads

variable {stop : Position}

mutual

/-- The parser reads an operand as what it means. -/
theorem Operand.run {ts : List Token} {x : Checked} (hx : Operand ts x) (ctx : Context)
    {rest : List Token} (hrest : Clear rest) :
    Reports x.2 ((Focus.operand ctx).run stop (ts ++ rest))
      ((Focus.value ctx x.1).run stop rest) := by
  match hx with
  | .number ht => exact .of_eq (run_operand_number ht)
  | .variable ht => exact .of_eq ((run_operand_name ht).trans (run_named hrest))
  | .unary ht hop hx =>
    -- a prefix operator binds tighter than what follows its operand
    refine .of_eq_trans (run_operand_unary ht hop) ((hx.run _ hrest).trans_eq ?_)
    exact run_value_complete (fun t _ => staysOpen_unary t.kind _) rfl
  | .group hl hx hr =>
    rw [List.cons_append, List.append_assoc]
    refine .of_eq_trans (run_operand_leftParen hl) ?_
    exact (hx.run _ (admits_group 0 _) (closes_rightParen hr)).trans_eq (run_value_rightParen hr)
  | .callNone hf hl hr =>
    exact .of_eq_trans ((run_operand_name hf).trans (run_named_leftParen hl))
      (run_operand_closeCall hr)
  | .call hf hl hxs hr =>
    rw [List.cons_append, List.cons_append, List.append_assoc]
    refine .of_eq_trans ((run_operand_name hf).trans (run_named_leftParen hl)) ?_
    exact hxs.run _ [] ctx.target ctx.frames hr

/-- The parser reads an expression as what it means. -/
theorem Expression.run {p : Nat} {ts : List Token} {x : Checked} (hx : Expression p ts x)
    (ctx : Context) (hctx : Admits p ctx.frames) {rest : List Token} (hrest : Closes p rest) :
    Reports x.2 ((Focus.operand ctx).run stop (ts ++ rest))
      ((Focus.value ctx x.1).run stop rest) := by
  match hx with
  | .operand hx => exact hx.run ctx hrest.1
  | .binary ht hop hq hx hy =>
    rw [List.append_assoc, List.cons_append]
    have hopen := fun f hf => hctx f hf _ _ hop hq
    refine (hx.run ctx (hctx.mono (by omega)) (closes_operator ht hop (by omega))).trans ?_
    refine .of_eq_trans (run_value_operator ht hop hopen) ?_
    -- the left operand now waits in a frame that everything after `ts` completes
    refine (hy.run { ctx with frames := .right _ _ :: ctx.frames } (admits_right hop _ _)
      (hrest.mono (by omega))).trans_eq ?_
    exact run_value_complete (staysOpen_right hop hq hrest) rfl

/-- The parser reads the arguments of a call up to its end, behind those it has already. -/
theorem Arguments.run {ts : List Token} {xs : List Expr × List Issue} (hxs : Arguments ts xs)
    (name : String) (args : List Expr) (target : Option String) (fs : List Frame) {r : Token}
    (hr : r.kind = .rightParen) {rest : List Token} :
    Reports (xs.2 ++ (resolveCall name (args ++ xs.1)).2)
      ((Focus.operand ⟨target, .call name args :: fs⟩).run stop (ts ++ ([r] ++ rest)))
      ((Focus.value ⟨target, fs⟩ (resolveCall name (args ++ xs.1)).1).run stop rest) := by
  match hxs with
  | .one hx =>
    exact (hx.run _ (admits_call 0 _ _ _) (closes_rightParen hr)).trans (run_value_closeCall hr)
  | .more hx ht hxs =>
    rw [List.append_assoc, List.cons_append, List.append_assoc, List.append_cons args]
    refine (hx.run _ (admits_call 0 _ _ _) (closes_comma ht)).trans
      (.of_eq_trans (run_value_comma ht) ?_)
    exact hxs.run name _ target fs hr

end

end Reads

/-! ### Lines of one statement -/

/-- The kinds of token that an operand can start with. -/
def StartsOperand (kind : TokenKind) : Prop :=
  kind = .number ∨ kind = .name ∨ kind = .leftParen ∨ ∃ op, kind = .operator op

/-- An operand has a first token, with which an operand can start. -/
theorem Operand.exists_cons {ts : List Token} {x : Checked} (hx : Operand ts x) :
    ∃ t rest, ts = t :: rest ∧ StartsOperand t.kind := by
  cases hx with
  | number ht => exact ⟨_, _, rfl, .inl ht⟩
  | «variable» ht => exact ⟨_, _, rfl, .inr (.inl ht)⟩
  | unary ht => exact ⟨_, _, rfl, .inr (.inr (.inr ⟨_, ht⟩))⟩
  | group hl => exact ⟨_, _, rfl, .inr (.inr (.inl hl))⟩
  | callNone hf => exact ⟨_, _, rfl, .inr (.inl hf)⟩
  | call hf => exact ⟨_, _, rfl, .inr (.inl hf)⟩

/-- An expression has a first token, with which an operand can start. -/
theorem Expression.exists_cons {p : Nat} {ts : List Token} {x : Checked}
    (hx : Expression p ts x) : ∃ t rest, ts = t :: rest ∧ StartsOperand t.kind := by
  match hx with
  | .operand hx => exact hx.exists_cons
  | .binary _ _ _ hx _ =>
    obtain ⟨t, rest, rfl, ht⟩ := hx.exists_cons
    exact ⟨t, _, rfl, ht⟩

section Line

variable {stop : Position} {ts : List Token} {x : Checked}

/-- A token that starts an operand starts a statement. -/
theorem run_idle {t : Token} {rest : List Token} (ht : StartsOperand t.kind) :
    Focus.idle.run stop (t :: rest) = (Focus.operand {}).run stop (t :: rest) := by
  have hstep : ∀ next, stepIdle t next = stepOperand {} t next := by
    intro next
    unfold stepIdle stepOperand startOperand
    obtain ht | ht | ht | ⟨op, ht⟩ := ht
    · simp only [ht]
    · simp only [ht]
    · simp only [ht]
    · simp only [ht]
      cases op.unary? <;> rfl
  rw [Focus.run, Focus.run]
  simp only [Focus.step, hstep]

/-- A line that is an expression is a statement of its own. -/
theorem Expression.parse_line (hx : Expression 0 ts x) :
    Reports x.2 (Line.mk ts stop).parse ⟨[.expr x.1], []⟩ := by
  obtain ⟨t, rest, rfl, ht⟩ := hx.exists_cons
  have hrun : Reports x.2 ((Focus.operand {}).run stop (t :: rest ++ []))
    ((Focus.value {} x.1).run stop []) := hx.run {} (admits_nil 0) (closes_nil 0)
  rw [List.append_nil] at hrun
  exact .of_eq_trans (run_idle ht) hrun

/-- A line with a name and `=` before an expression is an assignment. -/
theorem Expression.parse_assignment (hx : Expression 0 ts x) {f t : Token} (hf : f.kind = .name)
    (ht : t.kind = .assign) :
    Reports x.2 (Line.mk (f :: t :: ts) stop).parse ⟨[.assign (Text.fold f.text) x.1], []⟩ := by
  let ctx : Context := ⟨some (Text.fold f.text), []⟩
  have hrun : Reports x.2 ((Focus.operand ctx).run stop (ts ++ []))
    ((Focus.value ctx x.1).run stop []) := hx.run ctx (admits_nil 0) (closes_nil 0)
  rw [List.append_nil] at hrun
  have hname : Focus.idle.run stop (f :: t :: ts) =
      (Focus.named {} (Text.fold f.text)).run stop (t :: ts) :=
    (run_idle (.inr (.inl hf))).trans (run_operand_name hf)
  exact .of_eq_trans (hname.trans (run_named_assign ht)) hrun

end Line

end PointScope.Script
