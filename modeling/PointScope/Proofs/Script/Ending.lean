import PointScope.Proofs.Script.Lockstep
import PointScope.Proofs.Script.Sentence

/-!
# The end of parsing

Recursive descent ends on every list of tokens, with calls that nest at most a little deeper than
twice the number of the tokens before the end of the script. It stops at the first end of the
script, it has advanced over each token before it once and in order, and it never looks outside of
the tokens. Its statements and diagnostics are those of the parser, for which the tokens behind the
end do not matter (`parse_reads_to_end`).

Between statements both parsers stand still only for a moment: a token that starts no operand is
advanced over by itself, and a statement that starts with an operand has a token of its own
(`statement_inStep`). So scripts are in step by induction on the number of tokens that are left
(`script_inStep`).
-/

namespace PointScope.Script

open Descent

/-! ### Scripts in step -/

section Scripts

variable {stop : Token} {behind : List Token}

variable (behind) in
private theorem skipSeparators_inStep (hstop : stop.kind = .endOfScript) (ts : List Token) :
    ∃ rest, (ahead stop rest).kind ≠ .separator ∧ ∀ depth ≥ ts.length + 1,
      (skipSeparators depth).InStep stop behind ts () rest .idle .idle := by
  induction ts with
  | nil =>
    have hkind : (ahead stop []).kind ≠ .separator := by simp [ahead, hstop]
    refine ⟨[], hkind, fun depth hdepth => ?_⟩
    obtain ⟨depth, rfl⟩ := Nat.exists_eq_add_of_le' (show 1 ≤ depth by omega)
    rw [skipSeparators]
    refine InStep.peek.bind ?_
    rw [if_neg hkind]
    exact .pure ()
  | cons t ts ih =>
    -- a separator is read while no line has begun, which changes nothing
    by_cases ht : t.kind = .separator
    · obtain ⟨rest, hkind, hskip⟩ := ih
      refine ⟨rest, hkind, fun depth hdepth => ?_⟩
      rw [List.length_cons] at hdepth
      obtain ⟨depth, rfl⟩ := Nat.exists_eq_add_of_le' (show 1 ≤ depth by omega)
      rw [skipSeparators]
      refine InStep.peek_cons.bind ?_
      rw [if_pos ht]
      have hadvance : advance.InStep stop behind (t :: ts) () ts .idle .idle :=
        ⟨[], .advance, read_idle_separator ht⟩
      exact hadvance.bind (hskip depth (by omega))
    · refine ⟨t :: ts, ht, fun depth hdepth => ?_⟩
      obtain ⟨depth, rfl⟩ := Nat.exists_eq_add_of_le' (show 1 ≤ depth by omega)
      rw [skipSeparators]
      refine InStep.peek_cons.bind ?_
      rw [if_neg ht]
      exact .pure ()

section Statement

variable {depth : Nat} {t : Token} {rest : List Token} {e : Expr}

private theorem statement_assign {a : Token} {us : List Token} (ht : t.kind = .name)
    (ha : a.kind = .assign)
    (hvalue : (expression depth 0).InStep stop behind us e rest
      (.operand ⟨some (Text.fold t.text), []⟩) (.value ⟨some (Text.fold t.text), []⟩ e)) :
    (statement depth).InStep stop behind (t :: a :: us) (.assign (Text.fold t.text) e) rest .idle
      (.value ⟨some (Text.fold t.text), []⟩ e) := by
  refine InStep.peek_cons.bind (InStep.peekNext.bind ?_)
  rw [if_pos ⟨ht, ha⟩]
  have hname : advance.InStep stop behind (t :: a :: us) () (a :: us) .idle
      (.named {} (Text.fold t.text)) :=
    .advance (by simp [Token.InLine, ht]) fun _ _ =>
      (run_idle (.inr (.inl ht))).trans (run_operand_name ht)
  have hsign : advance.InStep stop behind (a :: us) () us (.named {} (Text.fold t.text))
      (.operand ⟨some (Text.fold t.text), []⟩) :=
    .advance (by simp [Token.InLine, ha]) fun _ _ => run_named_assign ha
  exact hname.bind (hsign.bind (hvalue.bind (.pure _)))

private theorem statement_expression {ts : List Token} (ht : StartsOperand t.kind)
    (hassign : ¬(t.kind = .name ∧ (ahead stop ts).kind = .assign))
    (hvalue : (expression depth 0).InStep stop behind (t :: ts) e rest (.operand {})
      (.value {} e)) :
    (statement depth).InStep stop behind (t :: ts) (.expr e) rest .idle (.value {} e) := by
  refine InStep.peek_cons.bind (InStep.peekNext.bind ?_)
  rw [if_neg hassign]
  exact .of_read (read_idle_operand ht) (hvalue.bind (.pure _))

end Statement

variable (behind) in
/-- A statement goes over its first token, and ends where the parser ends it. -/
theorem statement_inStep (hstop : stop.kind = .endOfScript) {t : Token}
    (ht : StartsOperand t.kind) (ts : List Token) :
    ∃ target e rest, Ends stop 0 rest ∧ rest.length ≤ ts.length ∧
      ∀ depth ≥ 2 * (ts.length + 1) + 2,
        (statement depth).InStep stop behind (t :: ts) (Context.statement ⟨target, []⟩ e) rest .idle
          (.value ⟨target, []⟩ e) := by
  -- an assignment is told by the token behind its first one
  by_cases hassign : t.kind = .name ∧ (ahead stop ts).kind = .assign
  · obtain ⟨a, us, rfl, ha⟩ := exists_cons_of_ahead hstop hassign.2 (by simp)
    obtain ⟨e, rest, hends, -, hexpression⟩ : ExpressionInStep stop behind 0 us :=
      expression_inStep hstop 0
    have hvalue := fun depth hdepth => hexpression depth hdepth
      ⟨some (Text.fold t.text), []⟩ (admits_nil 0) ⟨nofun, nofun⟩
    refine ⟨some (Text.fold t.text), e, rest, hends,
      (hvalue _ le_rfl).length_le.trans (Nat.le_succ _), fun depth hdepth => ?_⟩
    rw [List.length_cons] at hdepth
    exact statement_assign hassign.1 ha (hvalue depth (by omega))
  · obtain ⟨e, rest, hends, hprogress, hexpression⟩ : ExpressionInStep stop behind 0 (t :: ts) :=
      expression_inStep hstop 0
    have hawaits : Context.Awaits stop {} (t :: ts) :=
      ⟨fun _ t' us h hname hnext => by cases h; exact hassign ⟨hname, hnext⟩, nofun⟩
    exact ⟨none, e, rest, hends, Nat.le_of_lt_succ (hprogress ht), fun depth hdepth =>
      statement_expression ht hassign (hexpression depth hdepth {} (admits_nil 0) hawaits)⟩

/-- A token between statements starts one, or ends the script, or is a separator or misplaced. -/
private theorem startsOperand_or_misplaced {kind : TokenKind} (hend : kind ≠ .endOfScript)
    (hseparator : kind ≠ .separator) :
    StartsOperand kind ∨ kind = .rightParen ∨ kind = .comma ∨ kind = .assign := by
  cases kind <;> simp_all [StartsOperand]

variable (stop behind) in
/-- The descent reads all the tokens before `stop`, and finds in them what the parser does. -/
def ScriptInStep (depth : Nat) (ts : List Token) : Prop :=
  (script depth).Reads stop behind ts (Focus.idle.read (ts ++ stop :: behind)).statements
    (Focus.idle.read (ts ++ stop :: behind)).diagnostics []

section Script

variable {depth : Nat} {ts us : List Token} {t : Token}

private theorem script_end (hstop : stop.kind = .endOfScript)
    (hskip : (skipSeparators depth).InStep stop behind ts () [] .idle .idle) :
    ScriptInStep stop behind (depth + 1) ts := by
  obtain ⟨es, hskip, hread⟩ := hskip
  have hpeek : peek.Reads stop behind [] stop [] [] := .peek
  rw [ScriptInStep, hread, List.nil_append, read_idle_end hstop, script]
  refine hskip.bind (hpeek.bind ?_)
  rw [if_pos hstop]
  exact .pure []

/-- A token that can start no statement is skipped. -/
private theorem script_misplaced
    (hskip : (skipSeparators depth).InStep stop behind ts () (t :: us) .idle .idle)
    (ht : t.kind = .rightParen ∨ t.kind = .comma ∨ t.kind = .assign)
    (hscript : ScriptInStep stop behind depth us) : ScriptInStep stop behind (depth + 1) ts := by
  obtain ⟨es, hskip, hread⟩ := hskip
  have hpeek : peek.Reads stop behind (t :: us) t [] (t :: us) := .peek
  have hend : t.kind ≠ .endOfScript := by rintro h; simp [h] at ht
  have hinline : t.InLine := ⟨by rintro h; simp [h] at ht, hend⟩
  have hstart : ¬StartsOperand t.kind := by
    rcases ht with ht | ht | ht <;> simp [StartsOperand, ht]
  rw [ScriptInStep, hread, List.cons_append, read_idle_unexpected hinline hstart, script]
  refine hskip.bind (hpeek.bind ?_)
  rw [if_neg hend, if_pos ht]
  exact Reads.report.bind (Reads.advance.bind hscript)

/-- A statement is read, and the script goes on behind it. -/
private theorem script_statement {target : Option String} {e : Expr} {rest : List Token}
    (hskip : (skipSeparators depth).InStep stop behind ts () (t :: us) .idle .idle)
    (ht : StartsOperand t.kind) (hends : Ends stop 0 rest)
    (hstatement : (statement depth).InStep stop behind (t :: us)
      (Context.statement ⟨target, []⟩ e) rest .idle (.value ⟨target, []⟩ e))
    (hscript : ScriptInStep stop behind depth rest) : ScriptInStep stop behind (depth + 1) ts := by
  obtain ⟨es, hskip, hread⟩ := hskip
  obtain ⟨es', hstatement, hread'⟩ := hstatement
  have hpeek : peek.Reads stop behind (t :: us) t [] (t :: us) := .peek
  have hend : t.kind ≠ .endOfScript := by rintro h; simp [StartsOperand, h] at ht
  have hplaced : ¬(t.kind = .rightParen ∨ t.kind = .comma ∨ t.kind = .assign) := by
    rcases ht with ht | ht | ht | ⟨op, ht⟩ <;> simp [ht]
  rw [ScriptInStep, hread, hread',
    read_value_statement (forall_head fun op => hends.infixPower_eq_none), script]
  refine hskip.bind (hpeek.bind ?_)
  rw [if_neg hend, if_neg hplaced]
  exact hstatement.bind (hscript.map _)

end Script

/-- Every script is in step: every way around the loop goes over a token. -/
theorem script_inStep (hstop : stop.kind = .endOfScript) {ts : List Token}
    (hts : ∀ t ∈ ts, t.kind ≠ .endOfScript) :
    ∀ depth ≥ 2 * ts.length + 3, ScriptInStep stop behind depth ts := by
  induction hlength : ts.length using Nat.strong_induction_on generalizing ts with
  | _ k ih =>
  subst hlength
  intro depth hdepth
  obtain ⟨depth, rfl⟩ := Nat.exists_eq_add_of_le' (show 1 ≤ depth by omega)
  obtain ⟨us, hseparator, hskip⟩ := skipSeparators_inStep behind hstop ts
  replace hskip := hskip depth (by omega)
  have hle : us.length ≤ ts.length := hskip.length_le
  -- what is left is shorter behind every statement and every misplaced token
  have hinner : ∀ vs, vs <:+ us → vs.length < us.length → ScriptInStep stop behind depth vs :=
    fun vs hvs hlt => ih vs.length (hlt.trans_le hle)
      (fun t ht => hts t ((hvs.trans hskip.suffix).mem ht)) rfl depth (by omega)
  cases us with
  | nil => exact script_end hstop hskip
  | cons t us =>
    have hend : t.kind ≠ .endOfScript := hts t (hskip.suffix.mem (List.mem_cons_self ..))
    rw [List.length_cons] at hle
    rcases startsOperand_or_misplaced hend hseparator with ht | ht
    · obtain ⟨target, e, rest, hends, hrest, hstatement⟩ := statement_inStep behind hstop ht us
      replace hstatement := hstatement depth (by omega)
      exact script_statement hskip ht hends hstatement
        (hinner rest hstatement.suffix (Nat.lt_succ_of_le hrest))
    · exact script_misplaced hskip ht
        (hinner us (List.suffix_cons t us) (Nat.lt_succ_self us.length))

end Scripts

/-! ### The first end of the script -/

/-- Up to its first end a script is what is before the end. -/
private theorem exists_stop {ts : List Token} (hend : ∃ t ∈ ts, t.kind = .endOfScript) :
    ∃ stop behind, stop.kind = .endOfScript ∧ ts = beforeEnd ts ++ stop :: behind := by
  induction ts with
  | nil => simp at hend
  | cons t ts ih =>
    by_cases ht : t.kind = .endOfScript
    · exact ⟨t, ts, ht, by rw [beforeEnd, List.takeWhile_cons_of_neg (by simp [ht])]; rfl⟩
    · have hrest : ∃ u ∈ ts, u.kind = .endOfScript := by simpa [ht] using hend
      obtain ⟨stop, behind, hstop, heq⟩ := ih hrest
      refine ⟨stop, behind, hstop, ?_⟩
      rw [beforeEnd_cons ht, List.cons_append, ← heq]

private theorem beforeEnd_concat (ts : List Token) {stop : Token}
    (hstop : stop.kind = .endOfScript) :
    beforeEnd (ts ++ [stop]) = beforeEnd ts := by
  induction ts with
  | nil => exact List.takeWhile_cons_of_neg (by simp [hstop])
  | cons t ts ih =>
    by_cases ht : t.kind = .endOfScript
    · rw [beforeEnd, beforeEnd, List.cons_append, List.takeWhile_cons_of_neg (by simp [ht]),
        List.takeWhile_cons_of_neg (by simp [ht])]
    · rw [List.cons_append, beforeEnd_cons ht, beforeEnd_cons ht, ih]

private theorem ne_end_of_mem_beforeEnd {ts : List Token} {t : Token} (ht : t ∈ beforeEnd ts) :
    t.kind ≠ .endOfScript := by
  simpa using List.mem_takeWhile_imp ht

/-- The cursor starts before all the tokens that come before the first end of the script. -/
private theorem ofTokens_eq_between (tokens : List Token) :
    ∃ stop behind, stop.kind = .endOfScript ∧
      Cursor.ofTokens tokens = .between stop behind [] (beforeEnd tokens) [] := by
  unfold Cursor.ofTokens
  split
  case isTrue hlast =>
    obtain ⟨t, ht, hkind⟩ : ∃ t, tokens.getLast? = some t ∧ t.kind = .endOfScript := by
      simpa [Option.any_eq_true] using hlast
    obtain ⟨stop, behind, hstop, heq⟩ := exists_stop ⟨t, List.mem_of_getLast? ht, hkind⟩
    exact ⟨stop, behind, hstop, congrArg (Cursor.mk · 0 [] []) heq⟩
  case isFalse =>
    have hend : ∃ t ∈ tokens ++ [endToken ⟨0, 0⟩], t.kind = .endOfScript :=
      ⟨endToken ⟨0, 0⟩, by simp, rfl⟩
    obtain ⟨stop, behind, hstop, heq⟩ := exists_stop hend
    rw [beforeEnd_concat tokens rfl] at heq
    exact ⟨stop, behind, hstop, congrArg (Cursor.mk · 0 [] []) heq⟩

/-- Nothing behind the first end of the script is in a line. -/
private theorem splitLines_take (ts : List Token) :
    splitLines (ts.take ((beforeEnd ts).length + 1)) = splitLines ts := by
  induction ts with
  | nil => rfl
  | cons t ts ih =>
    by_cases ht : t.kind = .endOfScript
    · have hbefore : beforeEnd (t :: ts) = [] := List.takeWhile_cons_of_neg (by simp [ht])
      rw [hbefore, List.length_nil, List.take_succ_cons, splitLines_end ht, splitLines_end ht]
    · rw [beforeEnd_cons ht, List.length_cons, List.take_succ_cons, splitLines, splitLines, ih]

/-- The end that is put behind tokens without one is where their last line ends anyway. -/
private theorem splitLines_concat_end (ts : List Token) :
    splitLines (ts ++ [endToken ⟨0, 0⟩]) = splitLines ts := by
  induction ts with
  | nil => rfl
  | cons t ts ih => rw [List.cons_append, splitLines, splitLines, ih]

/-- A parser is given tokens with an end; one that is made up changes nothing. -/
private theorem parse_ofTokens (tokens : List Token) :
    parse (Cursor.ofTokens tokens).tokens = parse tokens := by
  unfold Cursor.ofTokens
  split
  · rfl
  · rw [parse, parse, lines, lines, splitLines_concat_end]

/-- **Parsing ends, and reads exactly up to the first end of the script.** For every list of tokens
the recursive descent has a result, so it never looks outside of the tokens, and its calls nest no
deeper than twice the number of the tokens before the end and three. It is then at the first end of
the script, has advanced over each token before that once, in order, and over no other, and it has
found the statements and diagnostics of the parser. Those are the same without the tokens behind the
first end. -/
theorem parse_reads_to_end (tokens : List Token) :
    let start := Cursor.ofTokens tokens
    let n := (beforeEnd tokens).length
    (∃ stop ∈ start.tokens[n]?, stop.kind = .endOfScript) ∧
      (∀ t ∈ start.tokens.take n, t.kind ≠ .endOfScript) ∧
      (∀ depth ≥ 2 * n + 3, script depth start = some ((parse tokens).statements,
        { start with
          position := n
          passed := List.range n
          diagnostics := (parse tokens).diagnostics })) ∧
      parse (tokens.take (n + 1)) = parse tokens := by
  intro start n
  obtain ⟨stop, behind, hstop, hstart⟩ := ofTokens_eq_between tokens
  have htokens : start.tokens = beforeEnd tokens ++ stop :: behind := congrArg Cursor.tokens hstart
  have hparse : Focus.idle.read (beforeEnd tokens ++ stop :: behind) = parse tokens := by
    rw [← htokens, ← parse_eq_read, parse_ofTokens]
  refine ⟨⟨stop, by rw [htokens]; simp [n], hstop⟩, ?_, fun depth hdepth => ?_, ?_⟩
  · rw [htokens, List.take_left]
    exact fun t ht => ne_end_of_mem_beforeEnd ht
  · -- both read the tokens before the end, and the automaton is the parser
    obtain ⟨read, hread, hscript⟩ : ScriptInStep stop behind depth (beforeEnd tokens) :=
      script_inStep hstop (fun t ht => ne_end_of_mem_beforeEnd ht) depth hdepth
    rw [List.append_nil] at hread
    subst hread
    rw [← hparse, htokens]
    exact (congrArg (script depth) hstart).trans (hscript [] [])
  · rw [parse, parse, lines, lines, splitLines_take]

end PointScope.Script
