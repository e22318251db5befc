import PointScope.Proofs.Script.Grammar

/-!
# Silence means well formed

A script is a sequence of statements with any number of separators around them, and a statement is
an expression or an expression behind a name and `=` (`Clause`, `Sentence`). If the parser reports
no repair, the tokens before the end of the script are such a sentence, and what the parser
returns is what the sentence means (`sentence_of_unrepaired`).

The parser goes from token to token, so the invariant speaks of the tokens that lie behind it.
`Opened` says which tokens a stack of open frames stands for, and `Focus.Reads` adds what the parser
has read since. A token that is read without a repair either goes on with the statement or ends it
and starts the next (`Focus.step_reads`). What makes the precedences come out right is
`Context.Holds.settle`: the frames that a token completes are exactly those whose operators bind at
least as tightly as the token does.
-/

namespace PointScope.Script

/-! ### Sentences -/

/-- A statement, and what is wrong with the calls in it. -/
inductive Clause : List Token → Statement × List Issue → Prop
  | expr {ts : List Token} {x : Checked} (hx : Expression 0 ts x) : Clause ts (.expr x.1, x.2)
  | assign {f t : Token} {ts : List Token} {x : Checked} (hf : f.kind = .name)
      (ht : t.kind = .assign) (hx : Expression 0 ts x) :
      Clause (f :: t :: ts) (.assign (Text.fold f.text) x.1, x.2)

/-- Statements with any number of separators around them, every token used once and in order. -/
inductive Sentence : List Token → List Statement × List Issue → Prop
  | nil : Sentence [] ([], [])
  | separator {t : Token} {ts : List Token} {x : List Statement × List Issue}
      (ht : t.kind = .separator) (hx : Sentence ts x) : Sentence (t :: ts) x
  | statement {ts us : List Token} {s : Statement × List Issue} {x : List Statement × List Issue}
      (hs : Clause ts s) (hx : Sentence us x) : Sentence (ts ++ us) (s.1 :: x.1, s.2 ++ x.2)

private theorem Clause.sentence {ts : List Token} {s : Statement × List Issue} (hs : Clause ts s) :
    Sentence ts ([s.1], s.2) := by
  have h := Sentence.statement hs .nil
  rwa [List.append_nil, List.append_nil] at h

/-- Two sentences, one behind the other, are one. -/
theorem Sentence.append {ts us : List Token} {x y : List Statement × List Issue}
    (hx : Sentence ts x) (hy : Sentence us y) :
    Sentence (ts ++ us) (x.1 ++ y.1, x.2 ++ y.2) := by
  induction hx with
  | nil => exact hy
  | separator ht _ ih => exact .separator ht ih
  | statement hs _ ih =>
    rw [List.append_assoc, List.append_assoc]
    exact .statement hs ih

/-! ### Joining operands -/

/-- An expression of tight operators is one of looser operators too. -/
theorem Expression.mono {p q : Nat} {ts : List Token} {x : Checked} (hx : Expression q ts x)
    (hpq : p ≤ q) : Expression p ts x := by
  cases hx with
  | operand hx => exact .operand hx
  | binary ht hop hq hx hy => exact .binary ht hop (Nat.lt_of_le_of_lt hpq hq) hx hy

/-- Nothing between two operands binds tighter than a unary operator. -/
theorem Expression.operand_of_prefixPower {ts : List Token} {x : Checked}
    (hx : Expression Operator.prefixPower ts x) : Operand ts x := by
  cases hx with
  | operand hx => exact hx
  | @binary _ q _ op _ _ _ _ _ hop hq =>
    have hle : q ≤ 60 := by cases op <;> cases hop <;> decide
    exact absurd hq (by simp only [Operator.prefixPower]; omega)

/-- A further argument behind a comma. -/
private theorem Arguments.snoc {ts us : List Token} {xs : List Expr × List Issue} {c : Token}
    {x : Checked}
    (hxs : Arguments ts xs) (hc : c.kind = .comma) (hx : Expression 0 us x) :
    Arguments (ts ++ c :: us) (xs.1 ++ [x.1], xs.2 ++ x.2) := by
  obtain ⟨args, issues⟩ := xs
  induction args generalizing ts issues with
  | nil => cases hxs
  | cons arg args ih =>
    cases hxs with
    | one hy => exact .more hy hc (.one hx)
    | more hy ht hys =>
      have hrest := ih _ hys
      rw [List.append_assoc, List.append_assoc, List.cons_append, List.cons_append]
      exact .more hy ht hrest

/-! ### The tokens behind the parser -/

/-- A token of this kind goes behind an expression whose operators bind tighter than this. -/
def TokenKind.level : TokenKind → Nat
  | .operator op => op.infixPower.getD 0 - 1
  | _ => 0

/-- A frame that a token completes binds tighter than the token. -/
private theorem level_lt_of_staysOpen {kind : TokenKind} {op : Operator} {left : Expr} {q : Nat}
    (hop : op.infixPower = some q) (h : (Frame.right op left).staysOpen kind = false) :
    kind.level < q := by
  have hpos := infixPower_pos hop
  cases kind with
  | operator op' =>
    cases hop' : op'.infixPower with
    | none => simpa [TokenKind.level, hop'] using hpos
    | some r =>
      have hle : r ≤ q := by simpa [Frame.staysOpen, hop, hop'] using h
      simp only [TokenKind.level, hop', Option.getD_some]
      omega
  | _ => exact hpos

/-- How tightly an operator has to bind to go on with the operand that a stack of frames waits
for. -/
def levelOf : List Frame → Nat
  | .right op _ :: _ => op.infixPower.getD 0
  | .unary _ :: _ => Operator.prefixPower
  | _ => 0

/-- The tokens that the open frames of a statement stand for, and what is wrong with the calls in
them. -/
inductive Opened : Context → List Token → List Issue → Prop
  | start : Opened ⟨none, []⟩ [] []
  | assign {f t : Token} (hf : f.kind = .name) (ht : t.kind = .assign) :
      Opened ⟨some (Text.fold f.text), []⟩ [f, t] []
  | right {target : Option String} {fs : List Frame} {pre ts : List Token} {is : List Issue}
      {t : Token} {op : Operator} {q : Nat} {x : Checked} (h : Opened ⟨target, fs⟩ pre is)
      (ht : t.kind = .operator op) (hop : op.infixPower = some q) (hq : levelOf fs < q)
      (hx : Expression (q - 1) ts x) :
      Opened ⟨target, .right op x.1 :: fs⟩ (pre ++ (ts ++ [t])) (is ++ x.2)
  | unary {target : Option String} {fs : List Frame} {pre : List Token} {is : List Issue}
      {t : Token} {op : Operator} {u : UnaryOp} (h : Opened ⟨target, fs⟩ pre is)
      (ht : t.kind = .operator op) (hop : op.unary? = some u) :
      Opened ⟨target, .unary u :: fs⟩ (pre ++ [t]) is
  | group {target : Option String} {fs : List Frame} {pre : List Token} {is : List Issue}
      {t : Token} (h : Opened ⟨target, fs⟩ pre is) (ht : t.kind = .leftParen) :
      Opened ⟨target, .group :: fs⟩ (pre ++ [t]) is
  | callNone {target : Option String} {fs : List Frame} {pre : List Token} {is : List Issue}
      {f l : Token} (h : Opened ⟨target, fs⟩ pre is) (hf : f.kind = .name)
      (hl : l.kind = .leftParen) :
      Opened ⟨target, .call (Text.fold f.text) [] :: fs⟩ (pre ++ [f, l]) is
  | call {target : Option String} {fs : List Frame} {pre ts : List Token} {is : List Issue}
      {f l c : Token} {xs : List Expr × List Issue} (h : Opened ⟨target, fs⟩ pre is)
      (hf : f.kind = .name) (hl : l.kind = .leftParen) (hxs : Arguments ts xs)
      (hc : c.kind = .comma) :
      Opened ⟨target, .call (Text.fold f.text) xs.1 :: fs⟩ (pre ++ f :: l :: (ts ++ [c]))
        (is ++ xs.2)

/-- The tokens `pre` open a context and go on with an expression whose operators bind tighter than
`p`; `is` is what is wrong with the calls in them. -/
def Context.Holds (ctx : Context) (p : Nat) (e : Expr) (pre : List Token) (is : List Issue) :
    Prop :=
  ∃ before ts earlier js, pre = before ++ ts ∧ is = earlier ++ js ∧ Opened ctx before earlier ∧
    Expression p ts (e, js)

/-- What the parser has read of a statement: the tokens behind it, and what is wrong with the calls
that have ended. -/
def Focus.Reads (pre : List Token) (is : List Issue) : Focus → Prop
  | .idle => pre = [] ∧ is = []
  | .operand ctx => Opened ctx pre is
  | .named ctx name => ∃ before t, pre = before ++ [t] ∧ t.kind = .name ∧
      name = Text.fold t.text ∧ Opened ctx before is
  | .value ctx e => ctx.Holds Operator.prefixPower e pre is

/-- An operand ends an open context. -/
theorem Opened.holds {ctx : Context} {pre ts : List Token} {is js : List Issue} {e : Expr}
    (h : Opened ctx pre is) (hx : Operand ts (e, js)) :
    ctx.Holds Operator.prefixPower e (pre ++ ts) (is ++ js) :=
  ⟨pre, ts, is, js, rfl, rfl, h, .operand hx⟩

/-- An operand may stand before any operator. -/
theorem Context.Holds.of_prefixPower {ctx : Context} {e : Expr} {pre : List Token}
    {is : List Issue} (h : ctx.Holds Operator.prefixPower e pre is) (p : Nat) :
    ctx.Holds p e pre is := by
  obtain ⟨before, ts, earlier, js, hpre, his, hopened, hx⟩ := h
  exact ⟨before, ts, earlier, js, hpre, his, hopened, .operand hx.operand_of_prefixPower⟩

/-- A statement without open frames is complete. -/
theorem Context.Holds.clause {target : Option String} {p : Nat} {e : Expr} {pre : List Token}
    {is : List Issue} (h : Context.Holds ⟨target, []⟩ p e pre is) :
    Clause pre (Context.statement ⟨target, []⟩ e, is) := by
  obtain ⟨before, ts, earlier, js, rfl, rfl, hopened, hx⟩ := h
  have hx := hx.mono (Nat.zero_le p)
  cases hopened with
  | start => exact .expr hx
  | assign hf ht => exact .assign hf ht hx

/-! ### Completing frames -/

/-- Some diagnostics of which none says that the parser departed from the grammar. -/
def Unrepaired (ds : List Diagnostic) : Prop := ∀ d ∈ ds, d.issue.isRepair = false

instance (ds : List Diagnostic) : Decidable (Unrepaired ds) :=
  inferInstanceAs (Decidable (∀ d ∈ ds, d.issue.isRepair = false))

/-- Nothing is repaired in two parts if nothing is in either. -/
theorem unrepaired_append {ds es : List Diagnostic} :
    Unrepaired (ds ++ es) ↔ Unrepaired ds ∧ Unrepaired es := List.forall_mem_append

private theorem unrepaired_map {is : List Issue} {p : Position} :
    Unrepaired (is.map (⟨·, p⟩)) ↔ ∀ i ∈ is, i.isRepair = false := by
  rw [Unrepaired, List.forall_mem_map]

/-- **Completing frames joins operands.** If the frames that do not stay open wait behind operators
that bind tighter than `p`, completing them gives an expression above `p`, and above what the
innermost frame left asks for. -/
theorem Context.Holds.settle {staysOpen : Frame → Bool} {target : Option String}
    {fs : List Frame} {p : Nat} {e : Expr} {pre : List Token} {is : List Issue}
    (h : Context.Holds ⟨target, fs⟩ (max (levelOf fs) p) e pre is)
    (hopen : ∀ op left q, op.infixPower = some q → staysOpen (.right op left) = false → p < q)
    (hsilent : ∀ i ∈ (settle staysOpen fs e).2.2, i.isRepair = false) :
    (settle staysOpen fs e).2.2 = [] ∧
      Context.Holds ⟨target, (settle staysOpen fs e).1⟩
        (max (levelOf (settle staysOpen fs e).1) p) (settle staysOpen fs e).2.1 pre is := by
  induction fs generalizing e pre is with
  | nil => exact ⟨rfl, h⟩
  | cons f fs ih =>
    rw [Script.settle] at hsilent ⊢
    split
    · exact ⟨rfl, h⟩
    · rename_i hf
      rw [if_neg hf] at hsilent
      obtain ⟨before, ts, earlier, js, rfl, rfl, hopened, hx⟩ := h
      cases hopened with
      | @right _ _ before us earlier t op q x hopened ht hop hq hy =>
        refine ih ⟨before, us ++ t :: ts, earlier, x.2 ++ js, by simp, by simp, hopened, ?_⟩ hsilent
        have hlevel : levelOf (.right op x.1 :: fs) = q := by rw [levelOf, hop, Option.getD_some]
        have hp : p < q := hopen op x.1 q hop (by simpa using hf)
        exact .binary ht hop (by omega) hy (hx.mono (by omega))
      | @unary _ _ before earlier t op u hopened ht hop =>
        refine ih ⟨before, t :: ts, earlier, js, by simp, rfl, hopened, ?_⟩ hsilent
        exact .operand (.unary ht hop (hx.mono (Nat.le_max_left _ _)).operand_of_prefixPower)
      | group | callNone | call =>
        -- a bracket that is completed here is a bracket that is not closed
        exact absurd (hsilent .missingParen List.mem_cons_self) (by decide)

/-- Completing stops at a frame that stays open. -/
private theorem settle_head (staysOpen : Frame → Bool) (fs : List Frame) (e : Expr) :
    ∀ f ∈ (settle staysOpen fs e).1.head?, staysOpen f = true := by
  induction fs generalizing e with
  | nil => rintro f ⟨⟩
  | cons f fs ih =>
    rw [settle]
    split
    · rintro f ⟨⟩
      assumption
    · exact ih _

/-! ### One token -/

/-- A step over `t` that goes on with the statement of the tokens `pre`, or that ends the statement
and starts the next one with `t`. -/
inductive Step.Follows (pre : List Token) (is : List Issue) (t : Token) (s : Step) : Prop
  | goesOn (hs : s.statements = [])
      (h : s.focus.Reads (pre ++ [t]) (is ++ s.diagnostics.map (·.issue)))
  | ends {statement : Statement} (hs : s.statements = [statement])
      (hclause : Clause pre (statement, is)) (hd : s.diagnostics = []) (h : s.focus.Reads [t] [])

/-- A step that reads `t` behind the tokens `pre`, and notices nothing. -/
structure Step.Takes (pre : List Token) (is : List Issue) (t : Token) (s : Step) : Prop where
  statements : s.statements = []
  diagnostics : s.diagnostics = []
  reads : s.focus.Reads (pre ++ [t]) is

private theorem Step.Takes.follows {pre : List Token} {is : List Issue} {t : Token} {s : Step}
    (h : s.Takes pre is t) : s.Follows pre is t := by
  refine .goesOn h.statements ?_
  rw [h.diagnostics, List.map_nil, List.append_nil]
  exact h.reads

section Steps

variable {ctx : Context} {pre : List Token} {is : List Issue} {t : Token} {next : Position}

theorem unrepaired_report {issues : List Issue} {p : Position} {s : Step} :
    Unrepaired (s.report issues p).diagnostics ↔
      (∀ i ∈ issues, i.isRepair = false) ∧ Unrepaired s.diagnostics :=
  unrepaired_append.trans (and_congr_left' unrepaired_map)

/-- The start of an operand is taken into what is open. -/
private theorem startOperand_takes (hctx : Opened ctx pre is) {s : Step}
    (hs : startOperand ctx t next = some s) (hsilent : Unrepaired s.diagnostics) :
    s.Takes pre is t := by
  unfold startOperand at hs
  split at hs
  · cases hs
    have hvalue := hctx.holds (.number ‹t.kind = .number›)
    rw [List.append_nil] at hvalue
    exact ⟨rfl, rfl, hvalue⟩
  · cases hs
    exact ⟨rfl, rfl, _, _, rfl, ‹_›, rfl, hctx⟩
  · cases hs
    exact ⟨rfl, rfl, .group hctx ‹_›⟩
  · split at hs
    · cases hs
      exact ⟨rfl, rfl, .unary hctx ‹_› ‹_›⟩
    · cases hs
      exact absurd (hsilent ⟨.misplacedOperator t.text, next⟩ List.mem_cons_self)
        (by simp [Issue.isRepair])
  · cases hs

/-- The first token of a statement. -/
theorem stepIdle_takes (hsilent : Unrepaired (stepIdle t next).diagnostics) :
    (stepIdle t next).Takes [] [] t := by
  unfold stepIdle at hsilent ⊢
  split
  · rename_i s hs
    rw [hs] at hsilent
    exact startOperand_takes .start hs hsilent
  · rename_i hs
    rw [hs] at hsilent
    exact absurd (hsilent ⟨.unexpectedToken t.text, t.position⟩ List.mem_cons_self)
      (by simp [Issue.isRepair])

/-- A call with all its tokens behind the parser becomes an operand. -/
theorem closeCall_follows (next : Position) {name : String} {args : List Expr} {us : List Token}
    {js : List Issue} (hctx : Opened ctx pre is) (hcall : Operand (us ++ [t])
      ((resolveCall name args).1, js ++ (resolveCall name args).2)) :
    (closeCall ctx name args next).Follows (pre ++ us) (is ++ js) t := by
  refine .goesOn rfl ?_
  have hissues : (closeCall ctx name args next).diagnostics.map (·.issue) =
      (resolveCall name args).2 := by
    simp [closeCall, Step.report, Function.comp_def]
  have hvalue := hctx.holds hcall
  rw [hissues, List.append_assoc, List.append_assoc]
  exact hvalue

/-- An operand that ends before `t` waits with it for the right operand of `t`. -/
theorem Context.Holds.right {op : Operator} {q : Nat} {e : Expr} (ht : t.kind = .operator op)
    (hop : op.infixPower = some q) (hvalue : ctx.Holds (max (levelOf ctx.frames) (q - 1)) e pre is)
    (hopen : ∀ f ∈ ctx.frames.head?, f.staysOpen (.operator op) = true) :
    Opened { ctx with frames := .right op e :: ctx.frames } (pre ++ [t]) is := by
  obtain ⟨before, ts, earlier, js, rfl, rfl, hopened, hx⟩ := hvalue
  have hlevel : levelOf ctx.frames < q := by
    have hpos := infixPower_pos hop
    match hframes : ctx.frames with
    | .right before left :: fs =>
      have hstays := hopen _ (by rw [hframes]; rfl)
      cases hbefore : before.infixPower with
      | none => simp [levelOf, hbefore, hpos]
      | some r => simpa [Frame.staysOpen, levelOf, hop, hbefore] using hstays
    | .unary u :: fs =>
      have hstays := hopen _ (by rw [hframes]; rfl)
      rw [staysOpen_unary] at hstays
      cases hstays
    | .group :: fs | .call _ _ :: fs | [] => exact hpos
  rw [List.append_assoc]
  exact .right hopened ht hop hlevel (hx.mono (Nat.le_max_right _ _))

/-- A parenthesis that closes a group makes an operand of it. -/
theorem Context.Holds.group {target : Option String} {fs : List Frame} {p : Nat} {e : Expr}
    (ht : t.kind = .rightParen) (hvalue : Context.Holds ⟨target, .group :: fs⟩ p e pre is) :
    Context.Holds ⟨target, fs⟩ Operator.prefixPower e (pre ++ [t]) is := by
  obtain ⟨before, ts, earlier, js, rfl, rfl, hopened, hx⟩ := hvalue
  cases hopened with
  | @group _ _ before _ l hopened hl =>
    have hgroup : Operand (l :: (ts ++ [t])) (e, js) := .group hl (hx.mono (Nat.zero_le p)) ht
    have hpre : before ++ [l] ++ ts ++ [t] = before ++ l :: (ts ++ [t]) := by simp
    rw [hpre]
    exact hopened.holds hgroup

/-- The last operand before a comma or a closing parenthesis is the last argument of a call. -/
theorem Context.Holds.arguments {target : Option String} {fs : List Frame} {name : String}
    {args : List Expr} {p : Nat} {e : Expr}
    (hvalue : Context.Holds ⟨target, .call name args :: fs⟩ p e pre is) :
    ∃ before earlier f l us js, pre = before ++ f :: l :: us ∧ is = earlier ++ js ∧
      Opened ⟨target, fs⟩ before earlier ∧ f.kind = .name ∧ l.kind = .leftParen ∧
      name = Text.fold f.text ∧ Arguments us (args ++ [e], js) := by
  obtain ⟨before, ts, earlier, js, rfl, rfl, hopened, hx⟩ := hvalue
  have hx := hx.mono (Nat.zero_le p)
  cases hopened with
  | @callNone _ _ before _ f l hopened hf hl =>
    exact ⟨before, _, f, l, ts, js, by simp, rfl, hopened, hf, hl, rfl, .one hx⟩
  | @call _ _ before us earlier f l c xs hopened hf hl hxs hc =>
    exact ⟨before, _, f, l, us ++ c :: ts, xs.2 ++ js, by simp, by simp, hopened, hf, hl, rfl,
      hxs.snoc hc hx⟩

/-- A token that continues a statement. The frames left open are those that the token asks for. -/
theorem continueValue_follows {e : Expr} {s : Step}
    (hvalue : ctx.Holds (max (levelOf ctx.frames) t.kind.level) e pre is)
    (hopen : ∀ f ∈ ctx.frames.head?, f.staysOpen t.kind = true)
    (hs : continueValue ctx e t.kind next = some s) : s.Follows pre is t := by
  obtain ⟨target, frames⟩ := ctx
  unfold continueValue at hs
  dsimp only at hs
  split at hs
  · rename_i frames op hkind
    split at hs
    · cases hs
      obtain ⟨q, hq⟩ := Option.isSome_iff_exists.mp ‹op.infixPower.isSome = true›
      rw [hkind, TokenKind.level, hq, Option.getD_some] at hvalue
      rw [hkind] at hopen
      exact Step.Takes.follows ⟨rfl, rfl, hvalue.right hkind hq hopen⟩
    · cases hs
  · cases hs
    exact Step.Takes.follows ⟨rfl, rfl, hvalue.group ‹_›⟩
  · cases hs
    obtain ⟨before, earlier, f, l, us, js, rfl, rfl, hopened, hf, hl, rfl, hargs⟩ :=
      hvalue.arguments
    exact closeCall_follows next hopened (.call hf hl hargs ‹_›)
  · cases hs
    obtain ⟨before, earlier, f, l, us, js, rfl, rfl, hopened, hf, hl, rfl, hargs⟩ :=
      hvalue.arguments
    refine Step.Takes.follows ⟨rfl, rfl, ?_⟩
    rw [List.append_assoc]
    exact .call hopened hf hl hargs ‹_›
  · cases hs

/-- A token that does not continue a statement completes all its frames. -/
private theorem frames_eq_nil_of_continueValue {e : Expr} {kind : TokenKind}
    (hopen : ∀ f ∈ ctx.frames.head?, f.staysOpen kind = true)
    (hs : continueValue ctx e kind next = none) : ctx.frames = [] := by
  obtain ⟨target, frames⟩ := ctx
  cases frames with
  | nil => rfl
  | cons f fs =>
    have hf : f.staysOpen kind = true := hopen f rfl
    cases kind with
    | operator op =>
      have hinfix : op.infixPower.isSome = true := by
        cases hop : op.infixPower with
        | none => cases f <;> simp [Frame.staysOpen, hop] at hf
        | some q => rfl
      simp [continueValue, hinfix] at hs
    | rightParen => cases f <;> simp [Frame.staysOpen, continueValue] at hf hs
    | comma => cases f <;> simp [Frame.staysOpen, continueValue] at hf hs
    | _ => cases f <;> simp [Frame.staysOpen] at hf

private theorem report_nil (s : Step) (p : Position) : s.report [] p = s := rfl

/-- A token behind an operand: some frames are completed, and then the token continues the
statement or ends it. -/
theorem stepValue_follows {e : Expr} (hvalue : ctx.Holds Operator.prefixPower e pre is)
    (hsilent : Unrepaired (stepValue ctx e t next).diagnostics) :
    (stepValue ctx e t next).Follows pre is t := by
  obtain ⟨hissues, hrest⟩ := unrepaired_report.mp hsilent
  obtain ⟨hnone, hsettled⟩ := (hvalue.of_prefixPower _).settle
    (fun op left q hop hclosed => level_lt_of_staysOpen hop hclosed) hissues
  have hopen := settle_head (Frame.staysOpen t.kind) ctx.frames e
  unfold stepValue
  dsimp only
  rw [hnone, report_nil]
  cases hcontinue : continueValue { ctx with frames := _ } _ t.kind next with
  | some s => exact continueValue_follows hsettled hopen hcontinue
  | none =>
    have hframes : (settle (Frame.staysOpen t.kind) ctx.frames e).1 = [] :=
      frames_eq_nil_of_continueValue hopen hcontinue
    rw [hframes] at hsettled
    rw [hcontinue, Option.getD_none] at hrest
    have hidle := stepIdle_takes hrest
    refine .ends ?_ hsettled.clause hidle.diagnostics hidle.reads
    exact congrArg (List.cons _) hidle.statements

theorem Arguments.ne_nil {ts : List Token} {xs : List Expr × List Issue} (h : Arguments ts xs) :
    xs.1 ≠ [] := by
  cases h <;> exact List.cons_ne_nil _ _

/-- A call whose parenthesis closes before any argument. -/
theorem Opened.call_nil {target : Option String} {fs : List Frame} {name : String}
    (h : Opened ⟨target, .call name [] :: fs⟩ pre is) (ht : t.kind = .rightParen) :
    (closeCall ⟨target, fs⟩ name [] next).Follows pre is t := by
  generalize hargs : ([] : List Expr) = args at h
  cases h with
  | @callNone _ _ before _ f l hopened hf hl =>
    have hcall : Operand ([f, l] ++ [t]) ((resolveCall (Text.fold f.text) []).1,
        [] ++ (resolveCall (Text.fold f.text) []).2) := .callNone hf hl ht
    have hclose := closeCall_follows next hopened hcall
    rwa [List.append_nil] at hclose
  | call hopened hf hl hxs hc => exact absurd hargs.symm hxs.ne_nil

/-- A token where an operand starts. -/
theorem stepOperand_follows (hctx : Opened ctx pre is)
    (hsilent : Unrepaired (stepOperand ctx t next).diagnostics) :
    (stepOperand ctx t next).Follows pre is t := by
  obtain ⟨target, frames⟩ := ctx
  unfold stepOperand at hsilent ⊢
  revert hsilent
  split
  · rename_i hframes
    obtain rfl : frames = _ := hframes
    exact fun _ => hctx.call_nil ‹_›
  · split
    · exact fun hsilent => (startOperand_takes hctx ‹_› hsilent).follows
    · intro hsilent
      exact absurd ((unrepaired_report.mp hsilent).1 .missingOperand List.mem_cons_self) (by decide)

/-- A token behind a name. -/
theorem stepNamed_follows {name : String} (hnamed : (Focus.named ctx name).Reads pre is)
    (hsilent : Unrepaired (stepNamed ctx name t next).diagnostics) :
    (stepNamed ctx name t next).Follows pre is t := by
  obtain ⟨before, f, rfl, hf, rfl, hctx⟩ := hnamed
  unfold stepNamed at hsilent ⊢
  revert hsilent
  split
  · refine fun _ => Step.Takes.follows ⟨rfl, rfl, ?_⟩
    rw [List.append_assoc]
    exact .callNone hctx hf ‹_›
  · intro _
    cases hctx with
    | start => exact Step.Takes.follows ⟨rfl, rfl, .assign hf ‹_›⟩
  · intro hsilent
    have hvalue := hctx.holds (.variable hf)
    rw [List.append_nil] at hvalue
    exact stepValue_follows hvalue hsilent

/-- **A token that needs no repair** goes on with the statement before it, or ends it and starts
the next. -/
theorem Focus.step_reads {focus : Focus} (hfocus : focus.Reads pre is)
    (hsilent : Unrepaired (focus.step t next).diagnostics) :
    (focus.step t next).Follows pre is t := by
  cases focus with
  | idle =>
    obtain ⟨rfl, rfl⟩ := hfocus
    exact (stepIdle_takes hsilent).follows
  | operand ctx => exact stepOperand_follows hfocus hsilent
  | named ctx name => exact stepNamed_follows hfocus hsilent
  | value ctx e => exact stepValue_follows hfocus hsilent

end Steps

/-! ### Lines -/

section Lines

variable {stop : Position}

private theorem finishValue_clause {ctx : Context} {e : Expr} {pre : List Token} {is : List Issue}
    (hvalue : ctx.Holds Operator.prefixPower e pre is)
    (hsilent : Unrepaired (finishValue ctx e stop).diagnostics) :
    ∃ s, finishValue ctx e stop = ⟨[s], []⟩ ∧ Clause pre (s, is) := by
  have hissues : ∀ i ∈ (settle (fun _ => false) ctx.frames e).2.2, i.isRepair = false :=
    unrepaired_map.mp hsilent
  obtain ⟨hnone, hsettled⟩ := (hvalue.of_prefixPower _).settle
    (fun op left q hop _ => infixPower_pos hop) hissues
  have hopen := settle_head (fun _ => false) ctx.frames e
  have hframes : (settle (fun _ => false) ctx.frames e).1 = [] := by
    cases hcases : (settle (fun _ => false) ctx.frames e).1 with
    | nil => rfl
    | cons f fs => cases hopen f (by rw [hcases]; rfl)
  rw [hframes] at hsettled
  refine ⟨_, ?_, hsettled.clause⟩
  rw [finishValue]
  dsimp only
  rw [hnone]
  rfl

/-- A line that ends without a repair ends with a statement, or is empty. -/
theorem Focus.finish_sentence {focus : Focus} {pre : List Token} {is : List Issue}
    (hfocus : focus.Reads pre is) (hsilent : Unrepaired (focus.finish stop).diagnostics) :
    Sentence pre ((focus.finish stop).statements,
      is ++ (focus.finish stop).diagnostics.map (·.issue)) := by
  have hvalue {ctx : Context} {e : Expr} (hholds : ctx.Holds Operator.prefixPower e pre is)
      (hsilent : Unrepaired (finishValue ctx e stop).diagnostics) :
      Sentence pre ((finishValue ctx e stop).statements,
        is ++ (finishValue ctx e stop).diagnostics.map (·.issue)) := by
    obtain ⟨s, hfinish, hclause⟩ := finishValue_clause hholds hsilent
    rw [hfinish, List.map_nil, List.append_nil]
    exact hclause.sentence
  cases focus with
  | idle =>
    obtain ⟨rfl, rfl⟩ := hfocus
    exact .nil
  | operand ctx =>
    exact absurd (hsilent ⟨.missingOperand, stop⟩ List.mem_cons_self) (by simp [Issue.isRepair])
  | named ctx name =>
    obtain ⟨before, f, rfl, hf, rfl, hctx⟩ := hfocus
    have hholds := hctx.holds (.variable hf)
    rw [List.append_nil] at hholds
    exact hvalue hholds hsilent
  | value ctx e => exact hvalue hfocus hsilent

/-- The tokens of a line that is read without a repair are statements. -/
theorem Focus.run_sentence {focus : Focus} {pre ts : List Token} {is : List Issue}
    (hfocus : focus.Reads pre is) (hsilent : Unrepaired (focus.run stop ts).diagnostics) :
    Sentence (pre ++ ts) ((focus.run stop ts).statements,
      is ++ (focus.run stop ts).diagnostics.map (·.issue)) := by
  induction ts generalizing focus pre is with
  | nil =>
    rw [List.append_nil]
    exact Focus.finish_sentence hfocus hsilent
  | cons t ts ih =>
    obtain ⟨hstep, hrest⟩ := unrepaired_append.mp hsilent
    let step := focus.step t (nextPosition ts stop)
    change Sentence _ (step.statements ++ (step.focus.run stop ts).statements,
      is ++ (step.diagnostics ++ (step.focus.run stop ts).diagnostics).map (·.issue))
    rw [List.map_append]
    -- a step goes on with the clause or ends it and starts the next
    cases Focus.step_reads hfocus hstep with
    | goesOn hs h =>
      have hsentence := ih h hrest
      rw [List.append_assoc, List.append_assoc] at hsentence
      rwa [show step.statements = [] from hs]
    | ends hs hclause hd h =>
      rw [show step.statements = _ from hs, show step.diagnostics = [] from hd]
      exact hclause.sentence.append (ih h hrest)

private theorem Line.parse_sentence {line : Line} (hsilent : Unrepaired line.parse.diagnostics) :
    Sentence line.tokens (line.parse.statements, line.parse.diagnostics.map (·.issue)) := by
  have hidle : Focus.idle.Reads [] [] := ⟨rfl, rfl⟩
  exact Focus.run_sentence hidle hsilent

end Lines

/-! ### Scripts -/

/-- The tokens before the end of the script. -/
def beforeEnd (ts : List Token) : List Token := ts.takeWhile (·.kind != .endOfScript)

theorem beforeEnd_cons {t : Token} (ht : t.kind ≠ .endOfScript) (ts : List Token) :
    beforeEnd (t :: ts) = t :: beforeEnd ts :=
  List.takeWhile_cons_of_pos (by simpa using ht)

/-- Lines that are read without a repair make a sentence of the script. The first line may have
begun before `ts`, with the tokens `pre`. -/
theorem sentence_splitLines (pre ts : List Token) {x : List Statement × List Issue}
    (hfirst : Sentence (pre ++ (splitLines ts).1.tokens) x)
    (hsilent : Unrepaired (parseLines (splitLines ts).2).diagnostics) :
    Sentence (pre ++ beforeEnd ts) (x.1 ++ (parseLines (splitLines ts).2).statements,
      x.2 ++ (parseLines (splitLines ts).2).diagnostics.map (·.issue)) := by
  -- token by token, with the first line so far in front of it
  induction ts generalizing pre x with
  | nil =>
    have hnil := hfirst.append .nil
    rwa [List.append_nil] at hnil
  | cons t ts ih =>
    rw [splitLines] at hfirst hsilent ⊢
    cases hkind : t.kind with
    | endOfScript =>
      simp only [hkind] at hfirst hsilent ⊢
      have hnil := hfirst.append .nil
      have hend : beforeEnd (t :: ts) = [] := List.takeWhile_cons_of_neg (by simp [hkind])
      rw [List.append_nil] at hnil
      rwa [hend]
    | separator =>
      simp only [hkind] at hfirst hsilent ⊢
      rw [List.append_nil] at hfirst
      obtain ⟨hline, hrest⟩ := unrepaired_append.mp hsilent
      have hlines := ih [] (Line.parse_sentence hline) hrest
      rw [beforeEnd_cons (by simp [hkind])]
      have hsentence := hfirst.append (.separator hkind hlines)
      rwa [← List.map_append] at hsentence
    | _ =>
      simp only [hkind] at hfirst hsilent ⊢
      rw [beforeEnd_cons (by simp [hkind]), List.append_cons]
      rw [List.append_cons] at hfirst
      exact ih _ hfirst hsilent

/-- **Silence means well formed.** If the parser reports no repair, the tokens before the end of the
script are a sentence, every one of them used once and in order; the statements that the parser
returns are what the sentence means, and what it reports is what is wrong with the calls in it. -/
theorem sentence_of_unrepaired {tokens : List Token}
    (hsilent : Unrepaired (parse tokens).diagnostics) :
    Sentence (beforeEnd tokens)
      ((parse tokens).statements, (parse tokens).diagnostics.map (·.issue)) := by
  obtain ⟨hfirst, hrest⟩ := unrepaired_append.mp hsilent
  have hsentence := sentence_splitLines [] tokens (Line.parse_sentence hfirst) hrest
  rwa [← List.map_append] at hsentence

/-- A repair behind the end of the script is none: the closing parenthesis there is not read. -/
theorem sentence_of_unrepaired_assignment :
    let tokens := (tokenize "$X = sin(1, -b)^2; assign(y, 3) z\n").tokens ++
      [⟨.rightParen, ")", ⟨2, 1⟩⟩]
    Unrepaired (parse tokens).diagnostics ∧ Sentence (beforeEnd tokens)
      ((parse tokens).statements, (parse tokens).diagnostics.map (·.issue)) := by
  intro tokens
  have hsilent : Unrepaired (parse tokens).diagnostics := by decide +kernel
  exact ⟨hsilent, sentence_of_unrepaired hsilent⟩

end PointScope.Script
