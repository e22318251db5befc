import PointScope.Proofs.Script.Descent
import PointScope.Proofs.Script.Reading

/-!
# Two parsers in step

Recursive descent and the parser read the same. To prove it, both are followed at once.
`Descent.InStep` says that a descent takes the parser from one focus to another: it advances over
the tokens that the parser reads on the way, and it reports what the parser reports. This is put
together move by move (`Descent.InStep.bind`).

A descent decides about a token once, where the parser's stack of frames decides again and again,
so the two agree only if nothing that follows an expression still belongs to it. That is `Ends`: no
operator ahead binds tighter than the power that the expression was asked for.

Expressions are in step by induction on the number of tokens that are left, because every way from
an expression to one inside of it goes over a token: a unary operator, an opening parenthesis, a
comma, or an operator behind its left operand (`expression_inStep`). So the calls do not nest deeper
than twice the number of these tokens, and a little more. That an expression was read at all is no
progress, because a missing operand takes no token.
-/

namespace PointScope.Script

section InStep

variable (stop : Token) (behind : List Token)

/-- Before the tokens `ts`, the descent has the result `a` and goes on to the tokens `rest`, while
the parser goes from one focus to another, and both report the same. -/
def Descent.InStep {α : Type} (d : Descent α) (ts : List Token) (a : α) (rest : List Token)
    (focus focus' : Focus) : Prop :=
  ∃ ds, d.Reads stop behind ts a ds rest ∧
    focus.read (ts ++ stop :: behind) = ⟨[], ds⟩ ++ focus'.read (rest ++ stop :: behind)

variable {stop behind}

/-! ### What is ahead -/

private theorem headPosition_append (ts : List Token) :
    headPosition (ts ++ stop :: behind) = (ahead stop ts).position := by
  cases ts <;> rfl

theorem forall_head {P : Token → Prop} {ts : List Token} (h : P (ahead stop ts)) :
    ∀ t ∈ (ts ++ stop :: behind).head?, P t := by
  cases ts <;> (rintro t ⟨⟩; exact h)

/-- Only the end of the script stands where no token is left. -/
theorem exists_cons_of_ahead (hstop : stop.kind = .endOfScript) {ts : List Token}
    {kind : TokenKind} (h : (ahead stop ts).kind = kind) (hkind : kind ≠ .endOfScript) :
    ∃ t us, ts = t :: us ∧ t.kind = kind := by
  cases ts with
  | nil => exact absurd (h.symm.trans hstop) hkind
  | cons t us => exact ⟨t, us, rfl, h⟩

/-! ### Moves in step -/

namespace Descent.InStep

variable {α β : Type} {ts rest : List Token} {focus focus' focus'' : Focus}

/-- A parser in step leaves an end of the tokens that it is given. -/
theorem suffix {d : Descent α} {a : α} (h : d.InStep stop behind ts a rest focus focus') :
    rest <:+ ts := by
  obtain ⟨ds, hreads, -⟩ := h
  exact hreads.suffix

theorem length_le {d : Descent α} {a : α} (h : d.InStep stop behind ts a rest focus focus') :
    rest.length ≤ ts.length :=
  h.suffix.length_le

theorem pure (a : α) : (pure a : Descent α).InStep stop behind ts a ts focus focus :=
  ⟨[], .pure a, rfl⟩

/-- **One parser after another** stays in step if both do. -/
theorem bind {d : Descent α} {f : α → Descent β} {mid : List Token} {a : α} {b : β}
    (hd : d.InStep stop behind ts a mid focus focus')
    (hf : (f a).InStep stop behind mid b rest focus' focus'') :
    (d >>= f).InStep stop behind ts b rest focus focus'' := by
  obtain ⟨ds, hd, hread⟩ := hd
  obtain ⟨es, hf, hread'⟩ := hf
  refine ⟨ds ++ es, hd.bind hf, ?_⟩
  rw [hread, hread', ← Parsed.append_assoc]
  rfl

theorem peek : peek.InStep stop behind ts (ahead stop ts) ts focus focus :=
  ⟨[], .peek, rfl⟩

theorem peek_cons {t : Token} :
    Descent.peek.InStep stop behind (t :: ts) t (t :: ts) focus focus := peek

theorem peekNext {t : Token} :
    peekNext.InStep stop behind (t :: ts) (ahead stop ts).kind (t :: ts) focus focus :=
  ⟨[], .peekNext, rfl⟩

/-- The parser reads the token that is advanced over. -/
theorem advance {t : Token} (ht : t.InLine)
    (h : ∀ stop rest, focus.run stop (t :: rest) = focus'.run stop rest) :
    advance.InStep stop behind (t :: ts) () ts focus focus' := by
  have hread : focus.read (t :: (ts ++ stop :: behind)) =
      reported [] _ ++ focus'.read (ts ++ stop :: behind) := Focus.read_cons ht h
  exact ⟨[], .advance, hread⟩

/-- The parser changes its focus only. -/
theorem of_read {d : Descent α} {a : α}
    (h : focus.read (ts ++ stop :: behind) = focus'.read (ts ++ stop :: behind))
    (hd : d.InStep stop behind ts a rest focus' focus'') :
    d.InStep stop behind ts a rest focus focus'' := by
  obtain ⟨ds, hd, hread⟩ := hd
  exact ⟨ds, hd, h.trans hread⟩

/-- The parser reports without reading a token. -/
theorem report {issues : List Issue} (h : focus.read (ts ++ stop :: behind) =
    reported issues (headPosition (ts ++ stop :: behind)) ++ focus'.read (ts ++ stop :: behind)) :
    (report issues).InStep stop behind ts () ts focus focus' := by
  rw [headPosition_append] at h
  exact ⟨_, .report, h⟩

/-- The parser reports when it reads the token that is advanced over. -/
private theorem advance_report {t : Token} {issues : List Issue} {f : Unit → Descent β} {b : β}
    (h : ∀ us, focus.read (t :: us) = reported issues (headPosition us) ++ focus'.read us)
    (hf : (f ()).InStep stop behind ts b rest focus' focus'') :
    (Descent.advance >>= fun _ => Descent.report issues >>= f).InStep stop behind (t :: ts) b rest
      focus focus'' := by
  obtain ⟨ds, hf, hread⟩ := hf
  refine ⟨_, Reads.advance.bind (Reads.report.bind hf), ?_⟩
  rw [List.cons_append, h, hread, headPosition_append, ← Parsed.append_assoc]
  rfl

/-- The parser reports twice at one place. -/
private theorem report_report {issues issues' : List Issue} {f : Unit → Descent β} {b : β}
    (h : focus.read (ts ++ stop :: behind) =
      reported (issues ++ issues') (headPosition (ts ++ stop :: behind)) ++
        focus'.read (ts ++ stop :: behind))
    (hf : (f ()).InStep stop behind ts b rest focus' focus'') :
    (Descent.report issues >>= fun _ => Descent.report issues' >>= f).InStep stop behind ts b rest
      focus focus'' := by
  obtain ⟨ds, hf, hread⟩ := hf
  refine ⟨_, Reads.report.bind (Reads.report.bind hf), ?_⟩
  rw [h, hread, headPosition_append, ← Parsed.append_assoc, reported, List.map_append,
    ← List.append_assoc]
  rfl

end Descent.InStep

open Descent

/-! ### Where expressions start and end -/

/-- A context in which the tokens ahead are those of an operand: they do not start an assignment,
and do not close a call. -/
structure Context.Awaits (stop : Token) (ctx : Context) (ts : List Token) : Prop where
  assign : ctx = {} → ∀ t us, ts = t :: us → t.kind = .name → (ahead stop us).kind ≠ .assign
  call : ∀ name fs, ctx.frames = .call name [] :: fs → (ahead stop ts).kind ≠ .rightParen

private theorem awaits_cons {f : Frame} {fs : List Frame} {target : Option String} {ts : List Token}
    (hf : ∀ name, f ≠ .call name []) : Context.Awaits stop ⟨target, f :: fs⟩ ts :=
  ⟨nofun, fun name _ h => absurd (List.cons.inj h).1 (hf name)⟩

private theorem admits_unary (u : UnaryOp) (fs : List Frame) :
    Admits Operator.prefixPower (.unary u :: fs) := by
  rintro f ⟨⟩ op q hop hq
  have hle : q ≤ 60 := by cases op <;> cases hop <;> decide
  exact absurd hq (by simp only [Operator.prefixPower]; omega)

/-- No operator ahead binds tighter than `p`. -/
def Ends (stop : Token) (p : Nat) (ts : List Token) : Prop :=
  ∀ op q, (ahead stop ts).kind = .operator op → op.infixPower = some q → q ≤ p

/-- Behind a whole expression there is no operator that could go on with it. -/
theorem Ends.infixPower_eq_none {ts : List Token} (h : Ends stop 0 ts) {op : Operator}
    (hop : (ahead stop ts).kind = .operator op) : op.infixPower = none := by
  cases hq : op.infixPower with
  | none => rfl
  | some q => exact absurd (h op q hop hq) (Nat.not_le.mpr (infixPower_pos hq))

/-- An operator has all of its right operand. -/
theorem Ends.staysOpen_right {q : Nat} {ts : List Token} (h : Ends stop q ts) {op : Operator}
    (hop : op.infixPower = some q) (left : Expr) :
    (Frame.right op left).staysOpen (ahead stop ts).kind = false := by
  cases hkind : (ahead stop ts).kind with
  | operator op' =>
    cases hop' : op'.infixPower with
    | none => simp [Frame.staysOpen, hop']
    | some r => simpa [Frame.staysOpen, hop, hop'] using h op' r hkind hop'
  | _ => rfl

private theorem Ends.staysOpen_group {ts : List Token} (h : Ends stop 0 ts)
    (hparen : (ahead stop ts).kind ≠ .rightParen) :
    Frame.group.staysOpen (ahead stop ts).kind = false := by
  cases hkind : (ahead stop ts).kind with
  | operator op => simp [Frame.staysOpen, h.infixPower_eq_none hkind]
  | rightParen => exact absurd hkind hparen
  | _ => rfl

private theorem Ends.staysOpen_call {ts : List Token} (h : Ends stop 0 ts)
    (hparen : (ahead stop ts).kind ≠ .rightParen) (hcomma : (ahead stop ts).kind ≠ .comma)
    (name : String) (args : List Expr) :
    (Frame.call name args).staysOpen (ahead stop ts).kind = false := by
  cases hkind : (ahead stop ts).kind with
  | operator op => simp [Frame.staysOpen, h.infixPower_eq_none hkind]
  | rightParen => exact absurd hkind hparen
  | comma => exact absurd hkind hcomma
  | _ => rfl

/-! ### Expressions in step -/

variable (stop behind) in
/-- The descent reads an expression as the parser does, and stops where it ends. It never stops at a
token that starts an operand. -/
def ExpressionInStep (p : Nat) (ts : List Token) : Prop :=
  ∃ e rest, Ends stop p rest ∧ (StartsOperand (ahead stop ts).kind → rest.length < ts.length) ∧
    ∀ depth ≥ 2 * ts.length + 2, ∀ ctx : Context, Admits p ctx.frames → ctx.Awaits stop ts →
      (expression depth p).InStep stop behind ts e rest (.operand ctx) (.value ctx e)

section Brackets

variable (behind) (hstop : stop.kind = .endOfScript) {ts : List Token}

include hstop

private theorem closeGroup_inStep (hends : Ends stop 0 ts) :
    ∃ rest : List Token, ∀ target fs e, closeParen.InStep stop behind ts () rest
      (.value ⟨target, .group :: fs⟩ e) (.value ⟨target, fs⟩ e) := by
  by_cases hclose : (ahead stop ts).kind = .rightParen
  · obtain ⟨r, us, rfl, hr⟩ := exists_cons_of_ahead hstop hclose (by simp)
    refine ⟨us, fun target fs e => InStep.peek.bind ?_⟩
    rw [if_pos hclose]
    exact .advance (by simp [Token.InLine, hr]) fun _ _ => run_value_rightParen hr
  · refine ⟨ts, fun target fs e => InStep.peek.bind ?_⟩
    rw [if_neg hclose]
    exact .report (read_value_complete (f := .group) (forall_head (hends.staysOpen_group hclose)))

private theorem closeCall_inStep (hends : Ends stop 0 ts) (hcomma : (ahead stop ts).kind ≠ .comma)
    (name : String) (args : List Expr) (e : Expr) :
    ∃ rest : List Token, ∀ target fs,
      (closeParen >>= fun _ => resolve name (args ++ [e])).InStep stop behind ts
        (resolveCall name (args ++ [e])).1 rest (.value ⟨target, .call name args :: fs⟩ e)
        (.value ⟨target, fs⟩ (resolveCall name (args ++ [e])).1) := by
  unfold closeParen
  -- a missing parenthesis is reported and the call is closed all the same
  by_cases hclose : (ahead stop ts).kind = .rightParen
  · obtain ⟨r, us, rfl, hr⟩ := exists_cons_of_ahead hstop hclose (by simp)
    refine ⟨us, fun target fs => ?_⟩
    rw [bind_assoc]
    refine InStep.peek.bind ?_
    rw [if_pos hclose]
    exact .advance_report (fun _ => read_value_closeCall hr) (.pure _)
  · refine ⟨ts, fun target fs => ?_⟩
    rw [bind_assoc]
    refine InStep.peek.bind ?_
    rw [if_neg hclose]
    have hopen := hends.staysOpen_call hclose hcomma name args
    exact .report_report (read_value_complete (f := .call name args) (forall_head hopen)) (.pure _)

end Brackets

section Parts

variable (hstop : stop.kind = .endOfScript) {n : Nat}
  (hinner : ∀ us : List Token, us.length ≤ n → ∀ p, ExpressionInStep stop behind p us)

include hstop hinner

private theorem arguments_inStep {ts : List Token} (hts : ts.length ≤ n) (name : String)
    (args : List Expr) (hargs : args = [] → (ahead stop ts).kind ≠ .rightParen) :
    ∃ e rest, ∀ depth ≥ 2 * ts.length + 3, ∀ target fs,
      (arguments depth name args).InStep stop behind ts e rest
        (.operand ⟨target, .call name args :: fs⟩) (.value ⟨target, fs⟩ e) := by
  induction hlength : ts.length using Nat.strong_induction_on generalizing ts args with
  | _ k ih =>
  subst hlength
  obtain ⟨e, mid, hends, -, hexpression⟩ := hinner ts hts 0
  have hargument : ∀ depth ≥ 2 * ts.length + 2, ∀ target fs,
      (expression depth 0).InStep stop behind ts e mid
        (.operand ⟨target, .call name args :: fs⟩)
        (.value ⟨target, .call name args :: fs⟩ e) := by
    intro depth hdepth target fs
    refine hexpression depth hdepth _ (admits_call 0 name args fs) ⟨nofun, fun name' fs' h => ?_⟩
    exact hargs (Frame.call.inj (List.cons.inj h).1).2
  -- behind a comma there are fewer tokens left
  by_cases hcomma : (ahead stop mid).kind = .comma
  · obtain ⟨c, us, rfl, hc⟩ := exists_cons_of_ahead hstop hcomma (by simp)
    have hlt : us.length < ts.length := (hargument _ le_rfl none []).length_le
    obtain ⟨e', rest, hrest⟩ := ih _ hlt (by omega) (args ++ [e]) (by simp) rfl
    refine ⟨e', rest, fun depth hdepth target fs => ?_⟩
    obtain ⟨depth, rfl⟩ := Nat.exists_eq_add_of_le' (show 1 ≤ depth by omega)
    rw [arguments]
    refine (hargument _ (by omega) target fs).bind (InStep.peek.bind ?_)
    rw [if_pos hcomma]
    exact (InStep.advance (by simp [Token.InLine, hc]) fun _ _ => run_value_comma hc).bind
      (hrest _ (by omega) target fs)
  · obtain ⟨rest, hclose⟩ := closeCall_inStep behind hstop hends hcomma name args e
    refine ⟨(resolveCall name (args ++ [e])).1, rest, fun depth hdepth target fs => ?_⟩
    obtain ⟨depth, rfl⟩ := Nat.exists_eq_add_of_le' (show 1 ≤ depth by omega)
    rw [arguments]
    refine (hargument _ (by omega) target fs).bind (InStep.peek.bind ?_)
    rw [if_neg hcomma]
    exact hclose target fs

private theorem call_inStep {l : Token} {us : List Token} (hl : l.kind = .leftParen)
    (hus : us.length ≤ n)
    (name : String) :
    ∃ e rest, ∀ depth ≥ 2 * us.length + 4, ∀ ctx,
      (call depth name).InStep stop behind (l :: us) e rest (.named ctx name) (.value ctx e) := by
  have hopen : ∀ ctx : Context, advance.InStep stop behind (l :: us) () us (.named ctx name)
      (.operand ⟨ctx.target, .call name [] :: ctx.frames⟩) :=
    fun ctx => .advance (by simp [Token.InLine, hl]) fun _ _ => run_named_leftParen hl
  -- an empty list of arguments is told by the parenthesis that follows
  by_cases hclose : (ahead stop us).kind = .rightParen
  · obtain ⟨r, vs, rfl, hr⟩ := exists_cons_of_ahead hstop hclose (by simp)
    refine ⟨(resolveCall name []).1, vs, fun depth hdepth ctx => ?_⟩
    obtain ⟨depth, rfl⟩ := Nat.exists_eq_add_of_le' (show 1 ≤ depth by omega)
    rw [call]
    refine (hopen ctx).bind (InStep.peek.bind ?_)
    rw [if_pos hclose]
    exact .advance_report (fun _ => read_operand_closeCall hr) (.pure _)
  · obtain ⟨e, rest, harguments⟩ := arguments_inStep hstop hinner hus name [] fun _ => hclose
    refine ⟨e, rest, fun depth hdepth ctx => ?_⟩
    obtain ⟨depth, rfl⟩ := Nat.exists_eq_add_of_le' (show 1 ≤ depth by omega)
    rw [call]
    refine (hopen ctx).bind (InStep.peek.bind ?_)
    rw [if_neg hclose]
    exact harguments _ (by omega) ctx.target ctx.frames

end Parts

/-! ### Operands in step -/

namespace Descent

section Operands

variable {depth : Nat} {ctx : Context} {t : Token} {ts : List Token}

private theorem operand_number (ht : t.kind = .number) :
    (operand (depth + 1)).InStep stop behind (t :: ts) (.const ((readDouble? t.text).getD 0)) ts
      (.operand ctx) (.value ctx (.const ((readDouble? t.text).getD 0))) := by
  rw [operand]
  refine InStep.peek_cons.bind ?_
  simp only [ht]
  exact (InStep.advance (by simp [Token.InLine, ht]) fun _ _ => run_operand_number ht).bind
    (.pure _)

private theorem operand_variable (ht : t.kind = .name) (hctx : ctx.Awaits stop (t :: ts))
    (hcall : (ahead stop ts).kind ≠ .leftParen) :
    (operand (depth + 1)).InStep stop behind (t :: ts) (.var (Text.fold t.text)) ts (.operand ctx)
      (.value ctx (.var (Text.fold t.text))) := by
  rw [operand]
  refine InStep.peek_cons.bind ?_
  simp only [ht]
  refine (InStep.advance (by simp [Token.InLine, ht]) fun _ _ => run_operand_name ht).bind ?_
  refine InStep.peek.bind ?_
  rw [if_neg hcall]
  have hassign : ctx = {} → (ahead stop ts).kind ≠ .assign :=
    fun hempty => hctx.assign hempty t ts rfl ht
  exact .of_read (read_named (forall_head hcall) fun hempty => forall_head (hassign hempty))
    (.pure _)

private theorem operand_call {rest : List Token} {e : Expr} (ht : t.kind = .name)
    (hleft : (ahead stop ts).kind = .leftParen)
    (hcall : (call depth (Text.fold t.text)).InStep stop behind ts e rest
      (.named ctx (Text.fold t.text)) (.value ctx e)) :
    (operand (depth + 1)).InStep stop behind (t :: ts) e rest (.operand ctx) (.value ctx e) := by
  rw [operand]
  refine InStep.peek_cons.bind ?_
  simp only [ht]
  refine (InStep.advance (by simp [Token.InLine, ht]) fun _ _ => run_operand_name ht).bind ?_
  refine InStep.peek.bind ?_
  rw [if_pos hleft]
  exact hcall

private theorem operand_group {mid rest : List Token} {e : Expr} (ht : t.kind = .leftParen)
    (hinner : (expression depth 0).InStep stop behind ts e mid
      (.operand ⟨ctx.target, .group :: ctx.frames⟩) (.value ⟨ctx.target, .group :: ctx.frames⟩ e))
    (hclose : closeParen.InStep stop behind mid () rest
      (.value ⟨ctx.target, .group :: ctx.frames⟩ e) (.value ctx e)) :
    (operand (depth + 1)).InStep stop behind (t :: ts) e rest (.operand ctx) (.value ctx e) := by
  rw [operand]
  refine InStep.peek_cons.bind ?_
  simp only [ht]
  refine (InStep.advance (by simp [Token.InLine, ht]) fun _ _ => run_operand_leftParen ht).bind ?_
  exact hinner.bind (hclose.bind (.pure e))

/-- An operator before its operand is in step if its operand is. -/
theorem operand_unary {rest : List Token} {e : Expr} {op : Operator} {u : UnaryOp}
    (ht : t.kind = .operator op) (hop : op.unary? = some u)
    (hinner : (expression depth Operator.prefixPower).InStep stop behind ts e rest
      (.operand ⟨ctx.target, .unary u :: ctx.frames⟩)
      (.value ⟨ctx.target, .unary u :: ctx.frames⟩ e)) :
    (operand (depth + 1)).InStep stop behind (t :: ts) (.unary u e) rest (.operand ctx)
      (.value ctx (.unary u e)) := by
  rw [operand]
  refine InStep.peek_cons.bind ?_
  simp only [ht, hop]
  refine (InStep.advance (by simp [Token.InLine, ht]) fun _ _ => run_operand_unary ht hop).bind ?_
  refine hinner.bind (.of_read ?_ (.pure _))
  exact read_value_complete (f := .unary u) (forall_head (staysOpen_unary _ u))

private theorem operand_misplaced {op : Operator} (ht : t.kind = .operator op)
    (hop : op.unary? = none) :
    (operand (depth + 1)).InStep stop behind (t :: ts) .zero ts (.operand ctx)
      (.value ctx .zero) := by
  rw [operand]
  refine InStep.peek_cons.bind ?_
  simp only [ht, hop]
  exact .advance_report (fun _ => read_operand_misplaced ht hop) (.pure _)

private theorem operand_missing (hstart : ¬StartsOperand (ahead stop ts).kind)
    (hctx : ctx.Awaits stop ts) :
    (operand (depth + 1)).InStep stop behind ts .zero ts (.operand ctx) (.value ctx .zero) := by
  rw [operand]
  refine InStep.peek.bind ?_
  split
  · exact absurd (.inl ‹_›) hstart
  · exact absurd (.inr (.inl ‹_›)) hstart
  · exact absurd (.inr (.inr (.inr ⟨_, ‹_›⟩))) hstart
  · exact absurd (.inr (.inr (.inl ‹_›))) hstart
  · refine (InStep.report ?_).bind (.pure _)
    exact read_operand_missing (forall_head hstart)
      fun name fs hfs => forall_head (hctx.call name fs hfs)

end Operands

end Descent

section Expressions

variable (hstop : stop.kind = .endOfScript) {ts : List Token}
  (hinner : ∀ us : List Token, us.length < ts.length → ∀ p, ExpressionInStep stop behind p us)

include hstop hinner

private theorem operand_inStep :
    ∃ e rest, (StartsOperand (ahead stop ts).kind → rest.length < ts.length) ∧
      ∀ depth ≥ 2 * ts.length + 1, ∀ ctx : Context, ctx.Awaits stop ts →
        (operand depth).InStep stop behind ts e rest (.operand ctx) (.value ctx e) := by
  by_cases hstart : StartsOperand (ahead stop ts).kind
  case neg =>
    refine ⟨.zero, ts, (absurd · hstart), fun depth hdepth ctx hctx => ?_⟩
    obtain ⟨depth, rfl⟩ := Nat.exists_eq_add_of_le' (show 1 ≤ depth by omega)
    exact operand_missing hstart hctx
  obtain ⟨t, us, rfl, ht⟩ : ∃ t us, ts = t :: us ∧ t.kind = (ahead stop ts).kind :=
    exists_cons_of_ahead hstop rfl (by rintro hkind; simp [StartsOperand, hkind] at hstart)
  -- An operand has its first token, and what is inside of it comes after that.
  suffices h : ∃ e rest, rest.length ≤ us.length ∧ ∀ depth ≥ 2 * us.length + 2, ∀ ctx : Context,
      ctx.Awaits stop (t :: us) →
        (operand (depth + 1)).InStep stop behind (t :: us) e rest (.operand ctx) (.value ctx e) by
    obtain ⟨e, rest, hle, hoperand⟩ := h
    refine ⟨e, rest, fun _ => Nat.lt_succ_of_le hle, fun depth hdepth => ?_⟩
    rw [List.length_cons] at hdepth
    obtain ⟨depth, rfl⟩ := Nat.exists_eq_add_of_le' (show 1 ≤ depth by omega)
    exact hoperand depth (by omega)
  have hrest : ∀ vs : List Token, vs.length ≤ us.length → ∀ p, ExpressionInStep stop behind p vs :=
    fun vs hvs => hinner vs (Nat.lt_succ_of_le hvs)
  rcases hstart with ht | ht | ht | ⟨op, ht⟩
  · exact ⟨_, us, le_rfl, fun _ _ _ _ => operand_number ht⟩
  · by_cases hleft : (ahead stop us).kind = .leftParen
    · obtain ⟨l, vs, rfl, hl⟩ := exists_cons_of_ahead hstop hleft (by simp)
      obtain ⟨e, rest, hcall⟩ := call_inStep hstop hrest hl (Nat.le_succ _) (Text.fold t.text)
      refine ⟨e, rest, (hcall _ le_rfl {}).length_le, fun depth hdepth ctx _ => ?_⟩
      rw [List.length_cons] at hdepth
      exact operand_call ht hleft (hcall depth (by omega) ctx)
    · exact ⟨_, us, le_rfl, fun _ _ _ hctx => operand_variable ht hctx hleft⟩
  · obtain ⟨e, mid, hends, -, hexpression⟩ := hrest us le_rfl 0
    obtain ⟨rest, hclose⟩ := closeGroup_inStep behind hstop hends
    have hgroup := fun depth hdepth (ctx : Context) => hexpression depth hdepth
      ⟨ctx.target, .group :: ctx.frames⟩ (admits_group 0 _) (awaits_cons (by simp))
    refine ⟨e, rest, ?_, fun depth hdepth ctx _ => ?_⟩
    · exact (hclose none [] e).length_le.trans (hgroup _ le_rfl {}).length_le
    · exact operand_group ht (hgroup depth hdepth ctx) (hclose ctx.target ctx.frames e)
  · cases hop : op.unary? with
    | none => exact ⟨.zero, us, le_rfl, fun _ _ _ _ => operand_misplaced ht hop⟩
    | some u =>
      obtain ⟨e, rest, -, -, hexpression⟩ := hrest us le_rfl Operator.prefixPower
      have hunary := fun depth hdepth (ctx : Context) => hexpression depth hdepth
        ⟨ctx.target, .unary u :: ctx.frames⟩ (admits_unary u _) (awaits_cons (by simp))
      exact ⟨.unary u e, rest, (hunary _ le_rfl {}).length_le,
        fun depth hdepth ctx _ => operand_unary ht hop (hunary depth hdepth ctx)⟩

private theorem operators_inStep (p : Nat) (left : Expr) :
    ∃ e rest, Ends stop p rest ∧ rest.length ≤ ts.length ∧
      ∀ depth ≥ 2 * ts.length + 1, ∀ ctx : Context, Admits p ctx.frames →
        (operators depth p left).InStep stop behind ts e rest (.value ctx left) (.value ctx e) := by
  induction hlength : ts.length using Nat.strong_induction_on generalizing ts left with
  | _ k ih =>
  subst hlength
  -- where no tighter operator follows the loop ends with what it has
  by_cases hends : Ends stop p ts
  · refine ⟨left, ts, hends, le_rfl, fun depth hdepth ctx _ => ?_⟩
    obtain ⟨depth, rfl⟩ := Nat.exists_eq_add_of_le' (show 1 ≤ depth by omega)
    rw [operators]
    refine InStep.peek.bind ?_
    split
    · split
      · rw [if_pos (hends _ _ ‹_› ‹_›)]
        exact .pure left
      · exact .pure left
    · exact .pure left
  obtain ⟨op, q, hop, hq, hlt⟩ : ∃ op q, (ahead stop ts).kind = .operator op ∧
      op.infixPower = some q ∧ p < q := by
    simpa [Ends] using hends
  obtain ⟨t, us, rfl, ht⟩ := exists_cons_of_ahead hstop hop (by simp)
  obtain ⟨right, mid, hmid, -, hexpression⟩ := hinner us (Nat.lt_succ_self _) q
  have hright := fun depth hdepth (ctx : Context) => hexpression depth hdepth
    ⟨ctx.target, .right op left :: ctx.frames⟩ (admits_right hq left _) (awaits_cons (by simp))
  -- behind the right operand fewer tokens are left, so the loop goes on by induction
  have hle : mid.length ≤ us.length := (hright _ le_rfl {}).length_le
  obtain ⟨e, rest, hrest, hle', hoperators⟩ := ih mid.length (Nat.lt_succ_of_le hle)
    (fun vs hvs => hinner vs (hvs.trans (Nat.lt_succ_of_le hle))) (.binary op left right) rfl
  refine ⟨e, rest, hrest, hle'.trans (Nat.le_succ_of_le hle), fun depth hdepth ctx hctx => ?_⟩
  rw [List.length_cons] at hdepth
  obtain ⟨depth, rfl⟩ := Nat.exists_eq_add_of_le' (show 1 ≤ depth by omega)
  rw [operators]
  refine InStep.peek_cons.bind ?_
  simp only [ht, hq, if_neg (Nat.not_le.mpr hlt)]
  have hoperator : advance.InStep stop behind (t :: us) () us (.value ctx left)
      (.operand ⟨ctx.target, .right op left :: ctx.frames⟩) :=
    .advance (by simp [Token.InLine, ht]) fun _ _ =>
      run_value_operator ht hq fun f hf => hctx f hf op q hq hlt
  refine hoperator.bind ((hright depth (by omega) ctx).bind
    (.of_read ?_ (hoperators depth (by omega) ctx hctx)))
  -- the frame of the operator is closed before the next token is read
  exact read_value_complete (f := .right op left) (forall_head (hmid.staysOpen_right hq left))

omit hinner in
/-- Every expression is in step: whatever is inside of an operand, or behind an operator, has fewer
tokens left. -/
theorem expression_inStep (p : Nat) : ExpressionInStep stop behind p ts := by
  induction hlength : ts.length using Nat.strong_induction_on generalizing ts p with
  | _ k ih =>
  subst hlength
  have hinner : ∀ us : List Token, us.length < ts.length → ∀ p, ExpressionInStep stop behind p us :=
    fun us hus p => ih us.length hus p rfl
  obtain ⟨left, mid, hprogress, hoperand⟩ := operand_inStep hstop hinner
  have hle : mid.length ≤ ts.length :=
    (hoperand _ le_rfl ⟨some "", []⟩ ⟨nofun, nofun⟩).length_le
  obtain ⟨e, rest, hends, hle', hoperators⟩ := operators_inStep hstop
    (fun us hus => hinner us (hus.trans_le hle)) p left
  refine ⟨e, rest, hends, fun hstart => hle'.trans_lt (hprogress hstart), ?_⟩
  intro depth hdepth ctx hadmits hctx
  obtain ⟨depth, rfl⟩ := Nat.exists_eq_add_of_le' (show 1 ≤ depth by omega)
  rw [expression]
  exact (hoperand depth (by omega) ctx hctx).bind (hoperators depth (by omega) ctx hadmits)

end Expressions

end InStep

end PointScope.Script
