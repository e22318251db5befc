import PointScope.Proofs.Script.Formation

/-!
# Written programs

The written form of a compiled program, one statement a line, compiles to the program again
(`compile_display`). An expression is written as an operand of its own: a number, a name, a call,
or something in parentheses (`Expr.WellFormed.displays`). So reading it back needs no binding
powers, only that each part of the text is cut off from the next by a barrier.
-/

namespace PointScope.Script

/-! ### Parts of written expressions -/

namespace Lexes

variable {cs ds : List Char} {ts us : List Token}

theorem parenthesized (hcs : Lexes cs ts) :
    Lexes ('(' :: (cs ++ [')'])) (parenthesized ts) :=
  (hcs.append (by decide) nil.rightParen).leftParen

theorem call {name : String} (hname : IsName name.toList) (hcs : Lexes cs ts) :
    Lexes (name.toList ++ '(' :: (cs ++ [')'])) (callWords name ts) :=
  hname.lexes.append (by decide) hcs.parenthesized

theorem pair (hcs : Lexes cs ts) (hds : Lexes ds us) :
    Lexes (cs ++ ',' :: ' ' :: ds) (pairWords ts us) :=
  hcs.append (by decide) (hds.blank (by decide)).comma

/-- An operator between two operands has blanks around it. -/
theorem between (op : Operator) (hcs : Lexes cs ts) (hds : Lexes ds us) :
    Lexes (cs ++ ' ' :: (op.symbol.toList ++ ' ' :: ds))
      (ts ++ word (.operator op) op.symbol :: us) :=
  hcs.append (by decide) (((operator op).append (by decide) (hds.blank (by decide))).blank
    (by decide))

end Lexes

/-! ### Expressions -/

/-- A text that reads as one operand. It does not start with `=`, so that a `!` may stand before
it. -/
structure Displays (cs : List Char) (x : Checked) : Prop where
  head : cs.head? ≠ some '='
  operand : ∃ ts, Lexes cs ts ∧ Operand ts x

private theorem head?_append_ne {cs ds : List Char} (hcs : cs.head? ≠ some '=')
    (hds : ds.head? ≠ some '=') : (cs ++ ds).head? ≠ some '=' := by
  cases cs with
  | nil => exact hds
  | cons c cs => exact hcs

/-- A name does not start with an equals sign. -/
theorem IsIdentifier.head? {name : String} (h : IsIdentifier name) :
    name.toList.head? ≠ some '=' := by
  obtain ⟨c, rest, htext, hc, -⟩ := h.isName
  rw [htext, List.head?_cons]
  rintro ⟨⟩
  exact absurd hc (by decide)

private theorem head?_shortest {value : Float} (h : Binary64.IsMagnitude value) :
    (NumberText.shortest value).toList.head? ≠ some '=' := by
  obtain ⟨c, rest, htext, hc, -⟩ := NumberText.exists_shortest h
  rw [htext, List.head?_cons]
  rintro ⟨⟩
  exact absurd hc (by decide)

/-- The written arguments of a call read as its arguments. -/
private theorem displayArgs_lexes {args : List Expr} (hne : args ≠ [])
    (hargs : ∀ e ∈ args, Displays e.display.toList (e, e.issues)) :
    ∃ ts, Lexes (displayArgs args).toList ts ∧ Arguments ts (args, issuesOfArgs args) := by
  -- along the arguments; only the last one has no comma behind it
  induction args with
  | nil => exact absurd rfl hne
  | cons e es ih =>
    obtain ⟨he, hes⟩ := List.forall_mem_cons.mp hargs
    obtain ⟨ts, hlexes, hoperand⟩ := he.operand
    cases es with
    | nil =>
      rw [displayArgs, issuesOfArgs, issuesOfArgs, List.append_nil]
      exact ⟨ts, hlexes, .one (.operand hoperand)⟩
    | cons e' es =>
      obtain ⟨us, hrest, harguments⟩ := ih (List.cons_ne_nil _ _) hes
      have hpair := hlexes.pair hrest
      refine ⟨_, ?_, .more (.operand hoperand) (t := word .comma ",") rfl harguments⟩
      rw [pairWords] at hpair
      simpa [displayArgs] using hpair

/-- **A well-formed expression is written as an operand** that means it. -/
theorem Expr.WellFormed.displays {e : Expr} (he : e.WellFormed) :
    Displays e.display.toList (e, e.issues) := by
  induction he with
  | const hvalue => exact ⟨head?_shortest hvalue, _, lexes_shortest hvalue, operand_shortest hvalue⟩
  | var hname => exact ⟨hname.head?, _, hname.isName.lexes, hname.operand⟩
  | @unary op e _ ih =>
    obtain ⟨ts, hlexes, hoperand⟩ := ih.operand
    -- `!` before `=` would be read as one operator
    have htext := (hlexes.unary op.unary?_operator ih.head).parenthesized
    refine ⟨?_, _, ?_, operand_parenthesized (.operand (operand_unary hoperand))⟩
    · simp [Expr.display]
    · simpa [Expr.display] using htext
  | @binary op l r hop _ _ ihl ihr =>
    obtain ⟨p, hp⟩ := Option.isSome_iff_exists.mp hop
    obtain ⟨ts, hl, hleft⟩ := ihl.operand
    obtain ⟨us, hr, hright⟩ := ihr.operand
    have hbinary := expression_binary hp (infixPower_pos hp) (.operand hleft) (.operand hright)
    have htext := (hl.between op hr).parenthesized
    refine ⟨?_, _, ?_, operand_parenthesized hbinary⟩
    · simp [Expr.display]
    · simpa [Expr.display] using htext
  | @call name args hname hne _ ih =>
    have hhead : (Expr.call name (Builtin.ofName? name) args).display.toList.head? ≠ some '=' := by
      have hopen : ('(' :: ((displayArgs args).toList ++ [')'])).head? ≠ some '=' := by simp
      simpa [Expr.display] using head?_append_ne hname.head? hopen
    cases args with
    | nil =>
      have htext := Lexes.nil.call hname.isName
      refine ⟨hhead, _, ?_, operand_callWords_nil hname hne⟩
      simpa [Expr.display, displayArgs] using htext
    | cons e es =>
      obtain ⟨ts, hargs, harguments⟩ := displayArgs_lexes (List.cons_ne_nil e es) ih
      have htext := hargs.call hname.isName
      refine ⟨hhead, _, ?_, operand_callWords hname hne harguments⟩
      simpa [Expr.display] using htext
  | @assignVar name value hname _ ih =>
    obtain ⟨ts, hvalue, hoperand⟩ := ih.operand
    have htext := (hname.isName.lexes.pair hvalue).call isIdentifier_assignName.isName
    refine ⟨?_, _, ?_, operand_assignVar (.operand hoperand) hname⟩
    · simp [Expr.display]
    · simpa [Expr.display, assignName] using htext
  | @assignCell bank index value _ _ ihi ihv =>
    obtain ⟨ts, hindex, hinner⟩ := ihi.operand
    obtain ⟨us, hvalue, houter⟩ := ihv.operand
    have htext := ((hindex.call (isIdentifier_functionName bank).isName).pair hvalue).call
      isIdentifier_assignName.isName
    refine ⟨?_, _, ?_, operand_assignCell (.operand houter) (.operand hinner)⟩
    · simp [Expr.display]
    · simpa [Expr.display, assignName] using htext
  | @assignNone target value _ hwritable _ iht ihv =>
    obtain ⟨ts, htarget, hinner⟩ := iht.operand
    obtain ⟨us, hvalue, houter⟩ := ihv.operand
    have htext := (htarget.pair hvalue).call isIdentifier_assignName.isName
    refine ⟨?_, _, ?_, operand_assignNone (.operand houter) (.operand hinner) hwritable⟩
    · simp [Expr.display]
    · simpa [Expr.display, assignName] using htext

/-! ### Statements and programs -/

/-- A written statement compiles to the statement. -/
theorem Statement.WellFormed.compile_display {s : Statement} (hs : s.WellFormed) :
    (compile s.display).program.statements = [s] := by
  cases hs with
  | @assign name value hname hvalue =>
    obtain ⟨ts, hlexes, hoperand⟩ := hvalue.displays.operand
    -- the words `name`, `=` and those of the value, with blanks between them
    have hequals : Lexes ('=' :: ' ' :: value.display.toList) (word .assign "=" :: ts) :=
      (hlexes.blank (by decide)).cons rfl rfl
    have htext : Lexes (Statement.assign name value).display.toList
        (word .name name :: word .assign "=" :: ts) := by
      have hblank : Lexes (' ' :: '=' :: ' ' :: value.display.toList) (word .assign "=" :: ts) :=
        hequals.blank (by decide)
      simpa [Statement.display] using hname.isName.lexes.append (by decide) hblank
    obtain ⟨hstatements, -⟩ := htext.compile_assignment rfl rfl (.operand hoperand)
    rw [hstatements, word, hname.folded]
  | @expr e he =>
    obtain ⟨ts, hlexes, hoperand⟩ := he.displays.operand
    exact (hlexes.compile_expression (.operand hoperand)).1

/-- The written form of a program: its statements, one a line. -/
def Program.display (p : Program) : String := "\n".intercalate (p.statements.map Statement.display)

/-- Written statements, one a line, compile to the statements. -/
theorem compile_lines {ss : List Statement} (hss : ∀ s ∈ ss, s.WellFormed) :
    (compile ("\n".intercalate (ss.map Statement.display))).program.statements = ss := by
  induction ss with
  | nil => exact (Lexes.nil.compile_line (s := "") (by simp)).1
  | cons s ss ih =>
    obtain ⟨hs, hss⟩ := List.forall_mem_cons.mp hss
    cases ss with
    | nil => exact hs.compile_display
    | cons s' ss =>
      rw [List.map_cons, List.map_cons, String.intercalate_cons_cons, statements_append_newline,
        hs.compile_display]
      exact congrArg (s :: ·) (ih hss)

/-- A written program compiles to the program of the same statements. -/
theorem Program.compile_display {p : Program} (hp : ∀ s ∈ p.statements, s.WellFormed) :
    (compile p.display).program = .ofStatements p.statements := by
  rw [← ofStatements_statements_compile p.display]
  exact congrArg Program.ofStatements (compile_lines hp)

/-- **Writing undoes compiling.** The written form of what any script compiles to, however
malformed the script is, compiles to the same program, provided that no numeral of the script is
too large for a finite number. So writing and compiling once is as good as doing it twice. -/
theorem compile_display_compile {source : String} (hsource : ReadsFinitely source) :
    (compile (compile source).program.display).program = (compile source).program ∧
      (compile (compile source).program.display).program.display =
        (compile source).program.display := by
  have hcompile := Program.compile_display (compile_wellFormed hsource)
  rw [ofStatements_statements_compile] at hcompile
  exact ⟨hcompile, congrArg Program.display hcompile⟩

/-- A script with two repairs: a call that is never closed, and an operator without its right
operand. -/
theorem compile_display_compile_unclosed :
    ReadsFinitely "x = sin(2 *" ∧
      (compile (compile "x = sin(2 *").program.display).program =
        (compile "x = sin(2 *").program ∧
      (compile (compile "x = sin(2 *").program.display).program.display =
        (compile "x = sin(2 *").program.display := by
  have hsource : ReadsFinitely "x = sin(2 *" := by decide +kernel
  exact ⟨hsource, compile_display_compile hsource⟩

end PointScope.Script
