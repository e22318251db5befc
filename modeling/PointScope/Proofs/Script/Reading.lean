import PointScope.Proofs.Script.Grammar
import PointScope.Proofs.Script.Words

/-!
# The rest of a script

`Focus.read` is what the parser makes of all the tokens that are left, from some focus on: the rest
of the line, and the lines after it. So the parser can be followed from token to token without a
word about lines (`parse_eq_read`).

Each lemma below is one move. Over a token the parser goes on from the next one
(`Focus.read_cons`). Without reading a token it may still change its focus, and report something at
the place where it stands: a frame that does not stay open is completed (`read_value_complete`), a
missing operand is assumed (`read_operand_missing`), and a statement that nothing goes on with is
finished (`read_value_statement`). Unlike in the grammar, the tokens may be any, and what is
reported has its place.
-/

namespace PointScope.Script

/-! ### Lines of what is left -/

/-- What the parser makes of the tokens that are left, from a focus on. -/
def Focus.read (focus : Focus) (tokens : List Token) : Parsed :=
  focus.run (splitLines tokens).1.stop (splitLines tokens).1.tokens ++
    parseLines (splitLines tokens).2

/-- **Parsing line by line is reading from one token to the next.** -/
theorem parse_eq_read (tokens : List Token) : parse tokens = Focus.idle.read tokens := rfl

/-- Issues that are noticed at one place. -/
def reported (issues : List Issue) (p : Position) : Parsed := ⟨[], issues.map (⟨·, p⟩)⟩

/-- Where the first of the tokens stands that are left. -/
abbrev headPosition (tokens : List Token) : Position := nextPosition tokens ⟨0, 0⟩

/-- A token in a line belongs to the first one. -/
theorem splitLines_cons {t : Token} (ht : t.InLine) (ts : List Token) :
    splitLines (t :: ts) =
      (⟨t :: (splitLines ts).1.tokens, (splitLines ts).1.stop⟩, (splitLines ts).2) := by
  rw [splitLines]
  split
  · exact absurd ‹_› ht.2
  · exact absurd ‹_› ht.1
  · rfl

/-- A separator ends a line. -/
theorem splitLines_separator {t : Token} (ht : t.kind = .separator) (ts : List Token) :
    splitLines (t :: ts) = (⟨[], t.position⟩, lines ts) := by
  rw [splitLines]
  simp only [ht]
  rfl

/-- The end of the script ends the last line. -/
theorem splitLines_end {t : Token} (ht : t.kind = .endOfScript) (ts : List Token) :
    splitLines (t :: ts) = (⟨[], t.position⟩, []) := by
  rw [splitLines]
  simp only [ht]

/-- The next token of the line is the next token, and the line ends where the next token stands. -/
theorem splitLines_head (ts : List Token) :
    nextPosition (splitLines ts).1.tokens (splitLines ts).1.stop = headPosition ts ∧
      ∀ t ∈ (splitLines ts).1.tokens.head?, t ∈ ts.head? := by
  cases ts with
  | nil => exact ⟨rfl, fun t h => h⟩
  | cons t ts =>
    by_cases hend : t.kind = .endOfScript
    · rw [splitLines_end hend]
      exact ⟨rfl, by rintro t ⟨⟩⟩
    by_cases hseparator : t.kind = .separator
    · rw [splitLines_separator hseparator]
      exact ⟨rfl, by rintro t ⟨⟩⟩
    · rw [splitLines_cons ⟨hseparator, hend⟩]
      exact ⟨rfl, fun t h => h⟩

section Read

variable {focus focus' : Focus} {t : Token} {ts : List Token} {issues : List Issue}

/-- A move over a token that finishes no statement. -/
theorem Focus.read_cons (ht : t.InLine) (h : ∀ stop rest, focus.run stop (t :: rest) =
    reported issues (nextPosition rest stop) ++ focus'.run stop rest) :
    focus.read (t :: ts) = reported issues (headPosition ts) ++ focus'.read ts := by
  rw [read, splitLines_cons ht, h, (splitLines_head ts).1, Parsed.append_assoc]
  rfl

/-- A move over no token. It may depend on the next one. -/
theorem Focus.read_of_head {p : Position → Parsed} (h : ∀ stop rest,
    (∀ t ∈ rest.head?, t ∈ ts.head?) →
      focus.run stop rest = p (nextPosition rest stop) ++ focus'.run stop rest) :
    focus.read ts = p (headPosition ts) ++ focus'.read ts := by
  obtain ⟨hposition, hhead⟩ := splitLines_head ts
  rw [read, h _ _ hhead, hposition, Parsed.append_assoc]
  rfl

/-! ### Moves -/

variable {ctx : Context} {target : Option String} {fs : List Frame} {e : Expr}

/-- A frame that the next token does not keep open is completed. -/
theorem read_value_complete {f : Frame} (hopen : ∀ t ∈ ts.head?, f.staysOpen t.kind = false) :
    (Focus.value ⟨target, f :: fs⟩ e).read ts = reported (f.complete e).2 (headPosition ts) ++
      (Focus.value ⟨target, fs⟩ (f.complete e).1).read ts := by
  refine Focus.read_of_head (p := reported (f.complete e).2) fun stop rest hrest => ?_
  cases rest with
  | nil =>
    simp [Focus.run, Focus.finish, finishValue, settle, Context.statement, reported]
    rfl
  | cons t rest =>
    have hclosed := hopen t (hrest t rfl)
    have hstep : ∀ next, stepValue ⟨target, f :: fs⟩ e t next =
        (stepValue ⟨target, fs⟩ (f.complete e).1 t next).report (f.complete e).2 t.position := by
      intro next
      simp [stepValue, settle, hclosed, Context.statement, Step.report]
    rw [Focus.run, Focus.run, ← Parsed.append_assoc]
    simp only [Focus.step, hstep]
    rfl

private theorem startOperand_eq_none (ht : ¬StartsOperand t.kind) (next : Position) :
    startOperand ctx t next = none := by
  unfold startOperand
  split
  · exact absurd (.inl ‹_›) ht
  · exact absurd (.inr (.inl ‹_›)) ht
  · exact absurd (.inr (.inr (.inl ‹_›))) ht
  · exact absurd (.inr (.inr (.inr ⟨_, ‹_›⟩))) ht
  · rfl

/-- Where no operand starts, `0` is assumed, unless a parenthesis closes a call without
arguments. -/
theorem read_operand_missing (hstart : ∀ t ∈ ts.head?, ¬StartsOperand t.kind)
    (hcall : ∀ name fs, ctx.frames = .call name [] :: fs →
      ∀ t ∈ ts.head?, t.kind ≠ .rightParen) :
    (Focus.operand ctx).read ts =
      reported [.missingOperand] (headPosition ts) ++ (Focus.value ctx .zero).read ts := by
  refine Focus.read_of_head (p := reported [.missingOperand]) fun stop rest hrest => ?_
  cases rest with
  | nil => rfl
  | cons t rest =>
    have ht := hstart t (hrest t rfl)
    have hstep : ∀ next, stepOperand ctx t next =
        (stepValue ctx .zero t next).report [.missingOperand] t.position := by
      intro next
      unfold stepOperand
      split
      · exact absurd ‹t.kind = .rightParen› (hcall _ _ ‹_› t (hrest t rfl))
      · rw [startOperand_eq_none ht]
    rw [Focus.run, Focus.run, ← Parsed.append_assoc]
    simp only [Focus.step, hstep]
    rfl

/-- An operator that stands where an operand should start. -/
theorem read_operand_misplaced {op : Operator} (ht : t.kind = .operator op)
    (hop : op.unary? = none) : (Focus.operand ctx).read (t :: ts) =
      reported [.misplacedOperator t.text] (headPosition ts) ++
        (Focus.value ctx .zero).read ts := by
  refine Focus.read_cons (by simp [Token.InLine, ht]) fun stop rest => ?_
  rw [Focus.run, Focus.step, stepOperand]
  simp only [ht, startOperand, hop]
  rfl

/-- A name is a variable unless a call or an assignment follows. -/
theorem read_named {name : String} (hcall : ∀ t ∈ ts.head?, t.kind ≠ .leftParen)
    (hassign : ctx = {} → ∀ t ∈ ts.head?, t.kind ≠ .assign) :
    (Focus.named ctx name).read ts = (Focus.value ctx (.var name)).read ts := by
  refine Focus.read_of_head (p := reported []) fun stop rest hrest => ?_
  cases rest with
  | nil => rfl
  | cons t rest =>
    have hstep : ∀ next, stepNamed ctx name t next = stepValue ctx (.var name) t next := by
      intro next
      unfold stepNamed
      split
      · exact absurd ‹t.kind = .leftParen› (hcall t (hrest t rfl))
      · exact absurd ‹t.kind = .assign› (hassign rfl t (hrest t rfl))
      · rfl
    rw [Focus.run, Focus.run]
    simp only [Focus.step, hstep]
    rfl

/-- A parenthesis that closes a call behind its last argument. -/
theorem read_value_closeCall {name : String} {args : List Expr} (ht : t.kind = .rightParen) :
    (Focus.value ⟨target, .call name args :: fs⟩ e).read (t :: ts) =
      reported (resolveCall name (args ++ [e])).2 (headPosition ts) ++
        (Focus.value ⟨target, fs⟩ (resolveCall name (args ++ [e])).1).read ts := by
  refine Focus.read_cons (by simp [Token.InLine, ht]) fun stop rest => ?_
  rw [Focus.run, Focus.step, stepValue]
  simp [ht, settle, Frame.staysOpen, continueValue, closeCall, Step.report, reported]

/-- A parenthesis that closes a call without arguments. -/
theorem read_operand_closeCall {name : String} (ht : t.kind = .rightParen) :
    (Focus.operand ⟨target, .call name [] :: fs⟩).read (t :: ts) =
      reported (resolveCall name []).2 (headPosition ts) ++
        (Focus.value ⟨target, fs⟩ (resolveCall name []).1).read ts := by
  refine Focus.read_cons (by simp [Token.InLine, ht]) fun stop rest => ?_
  rw [Focus.run, Focus.step, stepOperand]
  simp [ht, closeCall, Step.report, reported]

/-! ### Between statements -/

/-- A statement that the next token does not go on with is finished. -/
theorem read_value_statement (hend : ∀ t ∈ ts.head?, ∀ op, t.kind = .operator op →
    op.infixPower = none) : (Focus.value ⟨target, []⟩ e).read ts =
      ⟨[Context.statement ⟨target, []⟩ e], []⟩ ++ Focus.idle.read ts := by
  let statement : Parsed := ⟨[Context.statement ⟨target, []⟩ e], []⟩
  refine Focus.read_of_head (p := fun _ => statement) fun stop rest hrest => ?_
  cases rest with
  | nil => rfl
  | cons t rest =>
    have hnone : ∀ next, continueValue ⟨target, []⟩ e t.kind next = none := by
      intro next
      unfold continueValue
      split <;> simp_all
    rw [Focus.run, Focus.run, ← Parsed.append_assoc]
    simp only [Focus.step, stepValue, settle, hnone, Option.getD_none, endStatement, Step.report]
    rfl

/-- A token that starts an operand starts a statement. -/
theorem read_idle_operand (ht : StartsOperand t.kind) :
    Focus.idle.read (t :: ts) = (Focus.operand {}).read (t :: ts) := by
  have hinline : t.InLine := by
    obtain ht | ht | ht | ⟨op, ht⟩ := ht <;> simp [Token.InLine, ht]
  rw [Focus.read, Focus.read, splitLines_cons hinline, run_idle ht]

/-- A token that starts no operand is skipped. -/
theorem read_idle_unexpected (hinline : t.InLine) (ht : ¬StartsOperand t.kind) :
    Focus.idle.read (t :: ts) =
      reported [.unexpectedToken t.text] t.position ++ Focus.idle.read ts := by
  rw [Focus.read, splitLines_cons hinline, Focus.run, Parsed.append_assoc]
  simp only [Focus.step, stepIdle, startOperand_eq_none ht]
  rfl

theorem read_idle_separator (ht : t.kind = .separator) :
    Focus.idle.read (t :: ts) = Focus.idle.read ts := by
  rw [Focus.read, splitLines_separator ht]
  rfl

theorem read_idle_end (ht : t.kind = .endOfScript) : Focus.idle.read (t :: ts) = {} := by
  rw [Focus.read, splitLines_end ht]
  rfl

end Read

end PointScope.Script
