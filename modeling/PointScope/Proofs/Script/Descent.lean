import PointScope.Proofs.Script.Lines

/-!
# Recursive descent

The parser keeps a stack of frames and reads every token once. The same language can be read by
recursive descent: an expression is an operand and the operators behind it, an operand may be a
bracket with expressions in it, and a cursor goes over the tokens. Nothing in the shape of such a
parser says that it ends. Some of its parts read no token at all, and a cursor can be asked for a
token where there is none. So a `Descent` may fail: it has no result if it looks outside of the
tokens, or if its calls nest deeper than a depth that it is given, where every turn of a loop counts
as a call.

The moves of the cursor are `peek`, `peekNext`, `advance` and `report`; it keeps a record of the
places that it has advanced over. `Descent.Reads` says what a descent does that stands somewhere
before the token `stop`: which tokens it advances over, what it reports, and what its result is. It
is put together move by move (`Reads.bind`).
-/

namespace PointScope.Script

/-! ### Cursors -/

/-- A place among some tokens, the places that have been advanced over, and what has been
reported. -/
structure Cursor where
  tokens : List Token
  position : Nat := 0
  passed : List Nat := []
  diagnostics : List Diagnostic := []

/-- The cursor before the first token. An end of the script is put behind tokens that do not end
with one. -/
def Cursor.ofTokens (tokens : List Token) : Cursor :=
  if tokens.getLast?.any fun t => t.kind = .endOfScript then { tokens }
  else { tokens := tokens ++ [endToken ⟨0, 0⟩] }

/-- A computation that moves a cursor, and may fail to have a result. -/
abbrev Descent := StateT Cursor Option

namespace Descent

/-! ### Moves -/

/-- The token at the cursor; a cursor beyond the tokens is held at the last one. -/
def peek : Descent Token := fun c =>
  (c.tokens[min c.position (c.tokens.length - 1)]?).map (·, c)

/-- The kind of the token behind the one at the cursor. -/
def peekNext : Descent TokenKind := fun c =>
  some ((c.tokens[c.position + 1]?).elim .endOfScript Token.kind, c)

/-- Advances over the token at the cursor; the last token is never left. -/
def advance : Descent Unit := do
  let _ ← peek
  modify fun c =>
    { c with
      position := if c.position < c.tokens.length - 1 then c.position + 1 else c.position
      passed := c.passed ++ [c.position] }

/-- Reports issues at the token at the cursor. -/
def report (issues : List Issue) : Descent Unit := do
  let t ← peek
  modify fun c => { c with diagnostics := c.diagnostics ++ issues.map (⟨·, t.position⟩) }

/-! ### Expressions -/

/-- Closes a bracket, with its parenthesis or without it. -/
def closeParen : Descent Unit := do
  let t ← peek
  if t.kind = .rightParen then advance else report [.missingParen]

/-- What a call stands for. -/
def resolve (name : String) (args : List Expr) : Descent Expr := do
  report (resolveCall name args).2
  return (resolveCall name args).1

mutual

/-- An expression whose operators bind tighter than `power`. -/
def expression : Nat → Nat → Descent Expr
  | 0, _ => failure
  | depth + 1, power => do
    let left ← operand depth
    operators depth power left

/-- The operators behind the operand `left` that bind tighter than `power`. -/
def operators : Nat → Nat → Expr → Descent Expr
  | 0, _, _ => failure
  | depth + 1, power, left => do
    let t ← peek
    match t.kind with
    | .operator op =>
      match op.infixPower with
      | some q =>
        if q ≤ power then return left
        else
          advance
          let right ← expression depth q
          operators depth power (.binary op left right)
      | none => return left
    | _ => return left

/-- An operand. -/
def operand : Nat → Descent Expr
  | 0 => failure
  | depth + 1 => do
    let t ← peek
    match t.kind with
    | .number =>
      advance
      return .const ((readDouble? t.text).getD 0)
    | .name =>
      advance
      let next ← peek
      if next.kind = .leftParen then call depth (Text.fold t.text)
      else return .var (Text.fold t.text)
    | .operator op =>
      advance
      match op.unary? with
      | some u =>
        let e ← expression depth Operator.prefixPower
        return .unary u e
      | none =>
        report [.misplacedOperator t.text]
        return .zero
    | .leftParen =>
      advance
      let e ← expression depth 0
      closeParen
      return e
    | _ =>
      report [.missingOperand]
      return .zero

/-- A call, from its opening parenthesis on. -/
def call : Nat → String → Descent Expr
  | 0, _ => failure
  | depth + 1, name => do
    advance
    let t ← peek
    if t.kind = .rightParen then
      advance
      resolve name []
    else arguments depth name []

/-- The rest of a call behind some of its arguments. -/
def arguments : Nat → String → List Expr → Descent Expr
  | 0, _, _ => failure
  | depth + 1, name, args => do
    let e ← expression depth 0
    let t ← peek
    if t.kind = .comma then
      advance
      arguments depth name (args ++ [e])
    else
      closeParen
      resolve name (args ++ [e])

end

/-! ### Statements -/

/-- A statement. -/
def statement (depth : Nat) : Descent Statement := do
  let t ← peek
  let next ← peekNext
  if t.kind = .name ∧ next = .assign then
    advance
    advance
    let e ← expression depth 0
    return .assign (Text.fold t.text) e
  else
    let e ← expression depth 0
    return .expr e

/-- Advances over separators. -/
def skipSeparators : Nat → Descent Unit
  | 0 => failure
  | depth + 1 => do
    let t ← peek
    if t.kind = .separator then
      advance
      skipSeparators depth

/-- The statements up to the end of the script. -/
def script : Nat → Descent (List Statement)
  | 0 => failure
  | depth + 1 => do
    skipSeparators depth
    let t ← peek
    if t.kind = .endOfScript then return []
    else if t.kind = .rightParen ∨ t.kind = .comma ∨ t.kind = .assign then
      report [.unexpectedToken t.text]
      advance
      script depth
    else
      let s ← statement depth
      let rest ← script depth
      return s :: rest

end Descent

/-! ### What a descent reads -/

section Reads

variable (stop : Token) (behind : List Token)

/-- The cursor behind the tokens `before`, all of which have been advanced over in order, and before
the tokens `ts`. Then come `stop` and others. -/
def Cursor.between (before ts : List Token) (ds : List Diagnostic) : Cursor :=
  ⟨before ++ (ts ++ stop :: behind), before.length, List.range before.length, ds⟩

/-- The first of some tokens, or `stop`. -/
def ahead (ts : List Token) : Token := ts.head?.getD stop

/-- Standing before the tokens `ts`, the descent advances over those before `rest`, reports `ds` and
has the result `a`. -/
def Descent.Reads {α : Type} (d : Descent α) (ts : List Token) (a : α) (ds : List Diagnostic)
    (rest : List Token) : Prop :=
  ∃ read, ts = read ++ rest ∧ ∀ before earlier,
    d (.between stop behind before ts earlier) =
      some (a, .between stop behind (before ++ read) rest (earlier ++ ds))

variable {stop behind} {α β : Type} {ts rest : List Token}

namespace Descent

/-- The parser looks at the token ahead. -/
private theorem peek_between (before : List Token) (ds : List Diagnostic) :
    peek (.between stop behind before ts ds) =
      some (ahead stop ts, .between stop behind before ts ds) := by
  have hmin : min before.length ((before ++ (ts ++ stop :: behind)).length - 1) =
      before.length := by
    simp only [List.length_append, List.length_cons]
    omega
  simp only [peek, Cursor.between, hmin]
  cases ts <;> simp [ahead]

namespace Reads

theorem pure (a : α) : (pure a : Descent α).Reads stop behind ts a [] ts :=
  ⟨[], rfl, fun before earlier => by rw [List.append_nil, List.append_nil]; rfl⟩

/-- One descent and then another. -/
theorem bind {d : Descent α} {f : α → Descent β} {mid : List Token} {a : α} {b : β}
    {ds es : List Diagnostic} (hd : d.Reads stop behind ts a ds mid)
    (hf : (f a).Reads stop behind mid b es rest) :
    (d >>= f).Reads stop behind ts b (ds ++ es) rest := by
  obtain ⟨read, rfl, hd⟩ := hd
  obtain ⟨read', rfl, hf⟩ := hf
  refine ⟨read ++ read', (List.append_assoc _ _ _).symm, fun before earlier => ?_⟩
  change (d _).bind (fun p => f p.1 p.2) = _
  rw [hd, Option.bind_some, hf, List.append_assoc, List.append_assoc]

/-- A descent and then something about its result. -/
theorem map {d : Descent α} {a : α} {ds : List Diagnostic} (f : α → β)
    (hd : d.Reads stop behind ts a ds rest) :
    (d >>= fun a => Pure.pure (f a)).Reads stop behind ts (f a) ds rest := by
  have h := hd.bind (f := fun a => Pure.pure (f a)) (pure (f a))
  rwa [List.append_nil] at h

theorem peek : peek.Reads stop behind ts (ahead stop ts) [] ts :=
  ⟨[], rfl, fun before earlier => by
    rw [List.append_nil, List.append_nil]
    exact peek_between before earlier⟩

/-- There always is a token to advance to, because `stop` is still ahead. -/
theorem advance {t : Token} : advance.Reads stop behind (t :: ts) () [] ts := by
  refine Reads.peek.bind ⟨[t], rfl, fun before earlier => ?_⟩
  have htokens : before ++ [t] ++ (ts ++ stop :: behind) = before ++ (t :: ts ++ stop :: behind) :=
    (List.append_cons before t _).symm
  have hinside : before.length < (before ++ (t :: ts ++ stop :: behind)).length - 1 := by
    simp only [List.length_append, List.length_cons]
    omega
  rw [List.append_nil, Cursor.between, Cursor.between, htokens, List.length_append,
    List.length_singleton, List.range_succ]
  exact congrArg (fun p => some ((), Cursor.mk _ p _ earlier)) (if_pos hinside)

/-- What is reported stands at the token ahead. -/
theorem report {issues : List Issue} : (report issues).Reads stop behind ts ()
    (issues.map (⟨·, (ahead stop ts).position⟩)) ts := by
  refine ⟨[], rfl, fun before earlier => ?_⟩
  change (Descent.peek _).bind _ = _
  rw [peek_between, Option.bind_some, List.append_nil]
  rfl

/-- The second token ahead. -/
theorem peekNext {t : Token} : peekNext.Reads stop behind (t :: ts) (ahead stop ts).kind []
    (t :: ts) := by
  refine ⟨[], rfl, fun before earlier => ?_⟩
  have hnext : (before ++ (t :: ts ++ stop :: behind))[before.length + 1]? =
      some (ahead stop ts) := by
    rw [List.getElem?_append_right (Nat.le_add_right _ _), Nat.add_sub_cancel_left]
    cases ts <;> rfl
  simp only [Descent.peekNext, Cursor.between, hnext, List.append_nil]
  rfl

/-- A parser leaves an end of the tokens that it is given. -/
theorem suffix {d : Descent α} {a : α} {ds : List Diagnostic}
    (h : d.Reads stop behind ts a ds rest) : rest <:+ ts := by
  obtain ⟨read, rfl, -⟩ := h
  exact List.suffix_append read rest

end Reads

end Descent

end Reads

end PointScope.Script
