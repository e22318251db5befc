import PointScope.Script.Lexer
import PointScope.Script.Resolve
import PointScope.Text.Basic

/-!
# Parsing and compiling

A script is parsed line by line: separators cut its tokens into lines, and no line looks past its
own end. Within a line the parser goes from token to token and never back. What it has seen but
not yet finished is a stack of frames, the innermost first, and a `Focus` that says whether it
stands before an operand or behind one.

The parser accepts every list of tokens. Where an operand is missing it takes `0`, where a closing
parenthesis is missing it closes anyway, and a token that can start no statement is skipped; each
of these is a diagnostic. A diagnostic carries the position of the token that the parser stands at
when it notices, which is the end of the line behind the last one.

A script is compiled by reading its tokens and parsing them. Compiling never fails; the diagnostics
are those of the characters first and those of the tokens after them, each in the order of the
script.
-/

namespace PointScope.Script

/-! ### Lines -/

/-- The tokens of one line, and the position where it ends. -/
structure Line where
  tokens : List Token
  stop : Position
deriving DecidableEq, Repr

/-- The first line of a list of tokens, and the lines after it. Whatever follows an
end-of-script token is ignored; if there is none, the last line ends at position `0:0`. -/
def splitLines : List Token → Line × List Line
  | [] => (⟨[], ⟨0, 0⟩⟩, [])
  | t :: ts =>
    match t.kind with
    | .endOfScript => (⟨[], t.position⟩, [])
    | .separator =>
      let (first, rest) := splitLines ts
      (⟨[], t.position⟩, first :: rest)
    | _ =>
      let (first, rest) := splitLines ts
      (⟨t :: first.tokens, first.stop⟩, rest)

/-- The lines of a list of tokens; there is at least one. -/
def lines (tokens : List Token) : List Line :=
  let (first, rest) := splitLines tokens
  first :: rest

/-! ### What is unfinished -/

/-- Something that waits for an operand. -/
inductive Frame where
  /-- The right operand of an operator is missing. -/
  | right (op : Operator) (left : Expr)
  /-- The operand of a unary operator is missing. -/
  | unary (op : UnaryOp)
  /-- The inside of a parenthesis. -/
  | group
  /-- A further argument of a call. -/
  | call (name : String) (args : List Expr)
deriving Inhabited

/-- A statement that is being read: the variable it assigns, if it does, and the frames that are
open, innermost first. -/
structure Context where
  target : Option String := none
  frames : List Frame := []
deriving Inhabited

/-- Where the parser stands. -/
inductive Focus where
  /-- Between two statements. -/
  | idle
  /-- Before an operand. -/
  | operand (ctx : Context)
  /-- Behind a name that stands where an operand starts: it may turn out to be a variable, the
  name of a function, or at the start of a statement the variable that is assigned. -/
  | named (ctx : Context) (name : String)
  /-- Behind an operand. -/
  | value (ctx : Context) (e : Expr)
deriving Inhabited

/-- What reading a token brought: finished statements, diagnostics, and the new focus. -/
structure Step where
  statements : List Statement := []
  diagnostics : List Diagnostic := []
  focus : Focus
deriving Inhabited

/-- The same step with diagnostics in front. -/
def Step.report (issues : List Issue) (p : Position) (s : Step) : Step :=
  { s with diagnostics := issues.map (⟨·, p⟩) ++ s.diagnostics }

/-! ### Closing frames -/

/-- What a frame becomes when `e` is all it gets, and the issues with that. -/
def Frame.complete (e : Expr) : Frame → Checked
  | .right op left => (.binary op left e, [])
  | .unary op => (.unary op e, [])
  | .group => (e, [.missingParen])
  | .call name args =>
    let (e, issues) := resolveCall name (args ++ [e])
    (e, .missingParen :: issues)

/-- Whether a frame stays open when a token follows its operand: operators close the frames that
bind their operand at least as tightly, a parenthesis closes up to the innermost bracket, a comma
up to the innermost call, and any other token closes everything. -/
def Frame.staysOpen (kind : TokenKind) (f : Frame) : Bool :=
  match kind, f with
  | .operator op, .right before _ =>
    op.infixPower.any fun p => before.infixPower.any fun q => q < p
  | .operator op, .unary _ => op.infixPower.any (Operator.prefixPower < ·)
  | .operator op, _ => op.infixPower.isSome
  | .rightParen, .group | .rightParen, .call _ _ => true
  | .comma, .call _ _ => true
  | _, _ => false

/-- Completes frames around `e`, the innermost first, up to the first one that stays open. -/
def settle (staysOpen : Frame → Bool) : List Frame → Expr → List Frame × Checked
  | [], e => ([], e, [])
  | f :: fs, e =>
    if staysOpen f then (f :: fs, e, [])
    else
      let (e, issues) := f.complete e
      let (fs, e, more) := settle staysOpen fs e
      (fs, e, issues ++ more)

/-- The statement that a context and its value make. -/
def Context.statement (ctx : Context) (e : Expr) : Statement :=
  match ctx.target with
  | some name => .assign name e
  | none => .expr e

/-! ### One token -/

/-- Reads a token that can start an operand; `none` if the token cannot. The position `next` is
that of the token after it. -/
def startOperand (ctx : Context) (t : Token) (next : Position) : Option Step :=
  match t.kind with
  | .number => some { focus := .value ctx (.const ((readDouble? t.text).getD 0)) }
  | .name => some { focus := .named ctx (Text.fold t.text) }
  | .leftParen => some { focus := .operand { ctx with frames := .group :: ctx.frames } }
  | .operator op =>
    match op.unary? with
    | some unary => some { focus := .operand { ctx with frames := .unary unary :: ctx.frames } }
    | none =>
      let step : Step := { focus := .value ctx .zero }
      some (step.report [.misplacedOperator t.text] next)
  | _ => none

/-- Reads a token between two statements: it starts a statement or is skipped. -/
def stepIdle (t : Token) (next : Position) : Step :=
  match startOperand {} t next with
  | some step => step
  | none => Step.report [.unexpectedToken t.text] t.position { focus := .idle }

/-- Closes a call with all its arguments at a parenthesis. -/
def closeCall (ctx : Context) (name : String) (args : List Expr) (next : Position) : Step :=
  let (e, issues) := resolveCall name args
  Step.report issues next { focus := .value ctx e }

/-- The step over a token of the given kind that continues the statement: `e` is the operand
before it, in the frames that stay open. `none` if the token does not continue the statement. -/
def continueValue (ctx : Context) (e : Expr) (kind : TokenKind) (next : Position) : Option Step :=
  match kind, ctx.frames with
  | .operator op, frames =>
    if op.infixPower.isSome then
      some { focus := .operand { ctx with frames := .right op e :: frames } }
    else none
  | .rightParen, .group :: outer => some { focus := .value { ctx with frames := outer } e }
  | .rightParen, .call name args :: outer =>
    some (closeCall { ctx with frames := outer } name (args ++ [e]) next)
  | .comma, .call name args :: outer =>
    some { focus := .operand { ctx with frames := .call name (args ++ [e]) :: outer } }
  | _, _ => none

/-- The step over a token that ends a statement and starts the next. -/
def endStatement (statement : Statement) (t : Token) (next : Position) : Step :=
  let step := stepIdle t next
  { step with statements := statement :: step.statements }

/-- Reads a token behind the operand `e`. A token that does not continue the statement ends it
and starts the next. -/
def stepValue (ctx : Context) (e : Expr) (t : Token) (next : Position) : Step :=
  let (frames, e, issues) := settle (Frame.staysOpen t.kind) ctx.frames e
  let step := (continueValue { ctx with frames } e t.kind next).getD <|
    endStatement (ctx.statement e) t next
  step.report issues t.position

/-- Reads a token before an operand. A call may be closed before its first argument; otherwise a
token that starts no operand stands behind an assumed `0`. -/
def stepOperand (ctx : Context) (t : Token) (next : Position) : Step :=
  match t.kind, ctx.frames with
  | .rightParen, .call name [] :: outer => closeCall { ctx with frames := outer } name [] next
  | _, _ =>
    match startOperand ctx t next with
    | some step => step
    | none => (stepValue ctx .zero t next).report [.missingOperand] t.position

/-- Reads a token behind a name. -/
def stepNamed (ctx : Context) (name : String) (t : Token) (next : Position) : Step :=
  match t.kind, ctx with
  | .leftParen, ctx =>
    { focus := .operand { ctx with frames := .call name [] :: ctx.frames } }
  | .assign, ⟨none, []⟩ => { focus := .operand ⟨some name, []⟩ }
  | _, ctx => stepValue ctx (.var name) t next

/-- Reads one token. -/
def Focus.step (focus : Focus) (t : Token) (next : Position) : Step :=
  match focus with
  | .idle => stepIdle t next
  | .operand ctx => stepOperand ctx t next
  | .named ctx name => stepNamed ctx name t next
  | .value ctx e => stepValue ctx e t next

/-! ### Lines and scripts -/

/-- Parsed text: its statements and what was wrong with it. -/
structure Parsed where
  statements : List Statement := []
  diagnostics : List Diagnostic := []
deriving Inhabited

/-- Two parsed texts, one after the other. -/
def Parsed.append (a b : Parsed) : Parsed :=
  ⟨a.statements ++ b.statements, a.diagnostics ++ b.diagnostics⟩

instance : Append Parsed := ⟨Parsed.append⟩

/-- Ends the statement with context `ctx` and operand `e` at the end of a line. -/
def finishValue (ctx : Context) (e : Expr) (stop : Position) : Parsed :=
  let (_, e, issues) := settle (fun _ => false) ctx.frames e
  ⟨[ctx.statement e], issues.map (⟨·, stop⟩)⟩

/-- Ends a line. -/
def Focus.finish (focus : Focus) (stop : Position) : Parsed :=
  match focus with
  | .idle => {}
  | .operand ctx => ⟨[], [⟨.missingOperand, stop⟩]⟩ ++ finishValue ctx .zero stop
  | .named ctx name => finishValue ctx (.var name) stop
  | .value ctx e => finishValue ctx e stop

/-- The position of the first of some tokens, or where their line ends. -/
def nextPosition (ts : List Token) (stop : Position) : Position :=
  match ts with
  | [] => stop
  | t :: _ => t.position

/-- Reads the rest of a line that ends at `stop`. -/
def Focus.run (focus : Focus) (stop : Position) : List Token → Parsed
  | [] => focus.finish stop
  | t :: ts =>
    let step := focus.step t (nextPosition ts stop)
    ⟨step.statements, step.diagnostics⟩ ++ step.focus.run stop ts

/-- Parses a line. -/
def Line.parse (line : Line) : Parsed := Focus.idle.run line.stop line.tokens

/-- Parses lines in order. -/
def parseLines : List Line → Parsed
  | [] => {}
  | line :: rest => line.parse ++ parseLines rest

/-- Parses a list of tokens. -/
def parse (tokens : List Token) : Parsed := parseLines (lines tokens)

/-! ### Scripts -/

/-- A program and what had to be repaired to obtain it. -/
structure Compiled where
  program : Program
  diagnostics : List Diagnostic
deriving Inhabited

/-- Compiles a script. -/
def compile (source : String) : Compiled :=
  let lexed := tokenize source
  let parsed := parse lexed.tokens
  ⟨.ofStatements parsed.statements, lexed.diagnostics ++ parsed.diagnostics⟩

/-- A compiled script runs the statements that its tokens are parsed to. -/
theorem statements_compile (source : String) :
    (compile source).program.statements = (parse (tokenize source).tokens).statements :=
  Program.statements_ofStatements _

/-- A compiled script is the program made of its statements. -/
theorem ofStatements_statements_compile (source : String) :
    .ofStatements (compile source).program.statements = (compile source).program :=
  congrArg Program.ofStatements (statements_compile source)

end PointScope.Script
