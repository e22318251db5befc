import PointScope.Proofs.Script.Sentence
import PointScope.Proofs.Script.Words

/-!
# Missing closing parentheses

If a line is read without a repair and closing parentheses are taken from its end, the parser
closes in their place: the statements stay the same, and what is reported more is one missing
parenthesis for each that was taken (`parse_without_parens`). This holds wherever the last bracket
that is left open has something in it. The empty argument list of a call is read as such only if its
parenthesis is there; without it the call gets an argument (`parse_empty_call`).

The parser stands before the parentheses as it stands before the end of the line that is left. From
there each parenthesis ends one bracket, and so does each repair (`value_misses`).
-/

namespace PointScope.Script

/-! ### What is reported more -/

/-- The text `b` is parsed as `a`, with reports of `n` missing parentheses among those of `a`. -/
structure Misses (n : Nat) (a b : Parsed) : Prop where
  statements : b.statements = a.statements
  count : (b.diagnostics.map (·.issue)).count .missingParen = n
  others : (b.diagnostics.map (·.issue)).filter (· ≠ .missingParen) = a.diagnostics.map (·.issue)

private theorem ne_missingParen_of_isRepair {is : List Issue} (his : ∀ i ∈ is, i.isRepair = false) :
    is.count .missingParen = 0 ∧ is.filter (· ≠ .missingParen) = is := by
  have hne : ∀ i ∈ is, i ≠ .missingParen := by
    rintro i hi rfl
    exact Bool.false_ne_true (his _ hi).symm
  constructor
  · exact List.count_eq_zero.mpr fun hmem => hne _ hmem rfl
  · exact List.filter_eq_self.mpr fun i hi => decide_eq_true (hne i hi)

namespace Misses

variable {n : Nat} {a b a' b' : Parsed}

/-- Nothing is missing from a line without repairs. -/
theorem refl (h : Unrepaired a.diagnostics) : Misses 0 a a := by
  obtain ⟨hcount, hothers⟩ := ne_missingParen_of_isRepair (List.forall_mem_map.mpr h)
  exact ⟨rfl, hcount, hothers⟩

/-- The same statements and reports in front. -/
theorem append (h : Misses n a b) {statements : List Statement} {ds : List Diagnostic}
    (hds : Unrepaired ds) : Misses n (⟨statements, ds⟩ ++ a) (⟨statements, ds⟩ ++ b) := by
  obtain ⟨hcount, hothers⟩ := ne_missingParen_of_isRepair (List.forall_mem_map.mpr hds)
  refine ⟨congrArg (statements ++ ·) h.statements, ?_, ?_⟩
  · change ((ds ++ b.diagnostics).map _).count _ = n
    rw [List.map_append, List.count_append, hcount, h.count, Nat.zero_add]
  · change ((ds ++ b.diagnostics).map _).filter _ = (ds ++ a.diagnostics).map _
    rw [List.map_append, List.filter_append, hothers, h.others, ← List.map_append]

/-- The same is reported before both, wherever. -/
theorem reports (h : Misses n a b) {is : List Issue} (his : ∀ i ∈ is, i.isRepair = false)
    (ha : Reports is a' a) (hb : Reports is b' b) : Misses n a' b' := by
  obtain ⟨hcount, hothers⟩ := ne_missingParen_of_isRepair his
  refine ⟨?_, ?_, ?_⟩
  · rw [hb.statements, ha.statements, h.statements]
  · rw [hb.issues, List.count_append, hcount, h.count, Nat.zero_add]
  · rw [hb.issues, ha.issues, List.filter_append, hothers, h.others]

/-- One more parenthesis is missing. -/
theorem succ (h : Misses n a b) (hb : Reports [.missingParen] b' b) : Misses (n + 1) a b' := by
  refine ⟨hb.statements.trans h.statements, ?_, ?_⟩
  · rw [hb.issues, List.singleton_append, List.count_cons_self, h.count]
  · rw [hb.issues]
    exact h.others

end Misses

/-! ### The end of a line in the place of parentheses -/

private theorem Reports.unrepaired {is : List Issue} {a b : Parsed} (h : Reports is a b)
    (ha : Unrepaired a.diagnostics) :
    (∀ i ∈ is, i.isRepair = false) ∧ Unrepaired b.diagnostics := by
  obtain ⟨ds, rfl, rfl⟩ := h
  obtain ⟨hds, hb⟩ := unrepaired_append.mp ha
  exact ⟨List.forall_mem_map.mpr hds, hb⟩

/-- A closing parenthesis starts no statement. -/
private theorem not_unrepaired_idle {t : Token} (ht : t.kind = .rightParen) (next : Position) :
    ¬Unrepaired (stepIdle t next).diagnostics := by
  intro h
  simp only [stepIdle, startOperand, ht] at h
  exact Bool.false_ne_true (h ⟨.unexpectedToken t.text, t.position⟩ List.mem_cons_self).symm

section Finish

variable {stop : Position} {target : Option String} {fs : List Frame} {e : Expr}

/-- The end of a line closes a group, with a report. -/
private theorem run_group_nil : Reports [.missingParen]
    ((Focus.value ⟨target, .group :: fs⟩ e).run stop [])
    ((Focus.value ⟨target, fs⟩ e).run stop []) :=
  ⟨[⟨.missingParen, stop⟩], rfl, rfl⟩

/-- The end of a line closes a call, with a report, and the call is looked up. -/
private theorem run_call_nil {name : String} {args : List Expr} :
    ∃ p, Reports [.missingParen] ((Focus.value ⟨target, .call name args :: fs⟩ e).run stop []) p ∧
      Reports (resolveCall name (args ++ [e])).2 p
        ((Focus.value ⟨target, fs⟩ (resolveCall name (args ++ [e])).1).run stop []) := by
  let ds := (resolveCall name (args ++ [e])).2.map (Diagnostic.mk · stop)
  refine ⟨⟨[], ds⟩ ++ (Focus.value ⟨target, fs⟩ (resolveCall name (args ++ [e])).1).run stop [],
    ⟨[⟨.missingParen, stop⟩], rfl, ?_⟩, ds, ?_, rfl⟩
  · simp [ds, Focus.run, Focus.finish, finishValue, settle, Frame.complete, Context.statement]
    rfl
  · rw [List.map_map]
    exact List.map_id _

/-- Behind an operand, each closing parenthesis ends what the end of the line would end with a
repair. -/
theorem value_misses {parens : List Token} (hparens : ∀ t ∈ parens, t.kind = .rightParen)
    (hsilent : Unrepaired ((Focus.value ⟨target, fs⟩ e).run stop parens).diagnostics) :
    Misses parens.length ((Focus.value ⟨target, fs⟩ e).run stop parens)
      ((Focus.value ⟨target, fs⟩ e).run stop []) := by
  induction parens generalizing fs e with
  | nil => exact .refl hsilent
  | cons t ts ih =>
    obtain ⟨ht, hts⟩ := List.forall_mem_cons.mp hparens
    -- the frames that the parenthesis completes are completed by the end of the line as well
    induction fs generalizing e with
    | nil =>
      obtain ⟨hstep, -⟩ := unrepaired_append.mp hsilent
      simp only [Focus.step, stepValue, settle, ht, continueValue] at hstep
      exact absurd hstep (not_unrepaired_idle ht _)
    | cons f fs ihfs =>
      have hcomplete {e' : Expr} (hf : f.complete e = (e', []))
          (hopen : f.staysOpen .rightParen = false) :
          Misses (t :: ts).length ((Focus.value ⟨target, f :: fs⟩ e).run stop (t :: ts))
            ((Focus.value ⟨target, f :: fs⟩ e).run stop []) := by
        have hrun : ∀ u ∈ (t :: ts).head?, f.staysOpen u.kind = false := by
          rintro u ⟨⟩
          rw [ht]
          exact hopen
        rw [run_value_complete hrun hf] at hsilent ⊢
        rw [run_value_complete (by rintro u ⟨⟩) hf]
        exact ihfs hsilent
      cases f with
      | right op left => exact hcomplete rfl rfl
      | unary op => exact hcomplete rfl rfl
      | group =>
        rw [run_value_rightParen ht] at hsilent ⊢
        exact (ih hts hsilent).succ run_group_nil
      | call name args =>
        have hclose : Reports _ ((Focus.value ⟨target, .call name args :: fs⟩ e).run stop (t :: ts))
            _ := run_value_closeCall ht
        obtain ⟨p, hmissing, hreports⟩ : ∃ p,
            Reports _ ((Focus.value ⟨target, .call name args :: fs⟩ e).run stop []) p ∧ _ :=
          run_call_nil
        obtain ⟨his, hsilent⟩ := hclose.unrepaired hsilent
        exact ((ih hts hsilent).reports his hclose hreports).succ hmissing

end Finish

/-! ### Before the parentheses -/

/-- The parser stands behind the opening parenthesis of a call. -/
def Focus.BehindCallParen : Focus → Prop
  | .operand ⟨_, .call _ [] :: _⟩ => True
  | _ => False

section Step

variable {ctx : Context} {t : Token} {next : Position}

private theorem startOperand_behind {s : Step} (hs : startOperand ctx t next = some s) :
    ¬s.focus.BehindCallParen := by
  unfold startOperand at hs
  split at hs
  · cases hs; exact id
  · cases hs; exact id
  · cases hs; exact id
  · split at hs <;> cases hs <;> exact id
  · cases hs

private theorem stepIdle_behind : ¬(stepIdle t next).focus.BehindCallParen := by
  unfold stepIdle
  split
  · exact startOperand_behind ‹_›
  · exact id

private theorem stepValue_behind {e : Expr} : ¬(stepValue ctx e t next).focus.BehindCallParen := by
  have hcontinue : ∀ {ctx : Context} {e : Expr} {s : Step},
      continueValue ctx e t.kind next = some s → ¬s.focus.BehindCallParen := by
    intro ctx e s hs
    unfold continueValue at hs
    split at hs
    · split at hs <;> cases hs
      exact id
    · cases hs; exact id
    · cases hs; exact id
    · rename_i name args outer hkind hframes
      cases hs
      -- the arguments before the comma are not empty
      cases args <;> exact id
    · cases hs
  unfold stepValue
  obtain ⟨frames, e, issues⟩ := settle (Frame.staysOpen t.kind) ctx.frames e
  cases hstep : continueValue { ctx with frames } e t.kind next with
  | some s =>
    have hbehind := hcontinue hstep
    simp only [hstep]
    exact hbehind
  | none =>
    simp only [hstep]
    exact stepIdle_behind

private theorem stepNamed_behind {name : String} (ht : t.kind ≠ .leftParen) :
    ¬(stepNamed ctx name t next).focus.BehindCallParen := by
  unfold stepNamed
  split
  · exact absurd ‹t.kind = .leftParen› ht
  · exact id
  · exact stepValue_behind

/-- Only an opening parenthesis leads behind one. -/
private theorem Focus.kind_of_behind {focus : Focus}
    (h : (focus.step t next).focus.BehindCallParen) :
    t.kind = .leftParen := by
  revert h
  contrapose!
  intro hne
  cases focus with
  | idle => exact stepIdle_behind
  | operand ctx =>
    rw [Focus.step, stepOperand]
    split
    · exact id
    · split
      · exact startOperand_behind ‹_›
      · exact stepValue_behind
  | named ctx name => exact stepNamed_behind hne
  | value ctx e => exact stepValue_behind

/-- A parenthesis closes no bracket without an operand in it, unless that is the argument list of a
call. -/
private theorem not_unrepaired_operand (ht : t.kind = .rightParen)
    (hctx : ¬(Focus.operand ctx).BehindCallParen) :
    ¬Unrepaired (stepOperand ctx t next).diagnostics := by
  intro h
  obtain ⟨target, frames⟩ := ctx
  unfold stepOperand at h
  split at h
  · rename_i hframes
    obtain rfl : frames = _ := hframes
    exact hctx trivial
  · simp only [startOperand, ht] at h
    exact Bool.false_ne_true ((unrepaired_report.mp h).1 .missingOperand List.mem_cons_self).symm

end Step

/-- The token at the start of the script. -/
abbrev Token.unplaced (t : Token) : Token := t.relocate fun _ => .start

/-- The parser reads what follows some tokens as it stands behind them. -/
theorem exists_run_append (focus : Focus) (hfocus : ¬focus.BehindCallParen) (ts : List Token) :
    ∃ done : Step,
      (∀ rest : List Token, focus.run .start ((ts ++ rest).map .unplaced) =
        ⟨done.statements, done.diagnostics⟩ ++ done.focus.run .start (rest.map .unplaced)) ∧
      (done.focus.BehindCallParen → ∃ t ∈ ts.getLast?, t.kind = .leftParen) := by
  induction ts using List.reverseRecOn with
  | nil => exact ⟨⟨[], [], focus⟩, fun rest => rfl, fun h => absurd h hfocus⟩
  | append_singleton ts t ih =>
    obtain ⟨done, hdone, -⟩ := ih
    let step := done.focus.step t.unplaced .start
    refine ⟨⟨done.statements ++ step.statements, done.diagnostics ++ step.diagnostics, step.focus⟩,
      fun rest => ?_, fun h => ⟨t, ?_, ?_⟩⟩
    · have hnext : nextPosition (rest.map .unplaced) .start = .start :=
        nextPosition_relocate (fun _ => .start) rest .start
      rw [List.append_assoc, hdone, List.singleton_append, List.map_cons, Focus.run, hnext,
        ← Parsed.append_assoc]
      rfl
    · simp
    · have hbehind : (done.focus.step t.unplaced .start).focus.BehindCallParen := h
      have hkind : t.unplaced.kind = .leftParen := Focus.kind_of_behind hbehind
      exact hkind

/-! ### Lines without their last parentheses -/

private theorem Misses.of_relocate {n : Nat} {a b : Parsed} {f g : Position → Position}
    (h : Misses n (a.relocate f) (b.relocate g)) : Misses n a b := by
  have hissues : ∀ (p : Parsed) (f : Position → Position),
      (p.relocate f).diagnostics.map (·.issue) = p.diagnostics.map (·.issue) := by
    intro p f
    exact List.map_map
  obtain ⟨hstatements, hcount, hothers⟩ := h
  rw [hissues] at hcount hothers
  rw [hissues] at hothers
  exact ⟨hstatements, hcount, hothers⟩

private theorem unrepaired_relocate {p : Parsed} (f : Position → Position)
    (h : Unrepaired p.diagnostics) :
    Unrepaired (p.relocate f).diagnostics := by
  exact List.forall_mem_map.mpr h

/-- The tokens before the closing parentheses are read as they are without them. -/
theorem run_misses {ts parens : List Token} (hparens : ∀ t ∈ parens, t.kind = .rightParen)
    (hcall : ∀ t ∈ ts.getLast?, t.kind ≠ .leftParen)
    (hsilent : Unrepaired (Focus.idle.run .start ((ts ++ parens).map .unplaced)).diagnostics) :
    Misses parens.length (Focus.idle.run .start ((ts ++ parens).map .unplaced))
      (Focus.idle.run .start (ts.map .unplaced)) := by
  obtain ⟨done, hdone, hbehind⟩ := exists_run_append .idle id ts
  have hend := hdone []
  rw [List.append_nil] at hend
  rw [hdone] at hsilent
  obtain ⟨hbefore, hsilent⟩ := unrepaired_append.mp hsilent
  rw [hdone, hend]
  refine .append ?_ hbefore
  have hkinds : ∀ t ∈ parens.map Token.unplaced, t.kind = .rightParen :=
    List.forall_mem_map.mpr hparens
  rw [← List.length_map Token.unplaced]
  generalize parens.map Token.unplaced = parens at hsilent hkinds ⊢
  -- the parser can stand before a parenthesis only if an operand is behind it
  cases parens with
  | nil => exact .refl hsilent
  | cons t us =>
    have ht : t.kind = .rightParen := hkinds t List.mem_cons_self
    cases hfocus : done.focus with
    | idle =>
      rw [hfocus] at hsilent
      exact absurd (unrepaired_append.mp hsilent).1 (not_unrepaired_idle ht _)
    | operand ctx =>
      rw [hfocus] at hsilent hbehind
      refine absurd (unrepaired_append.mp hsilent).1 (not_unrepaired_operand ht ?_)
      intro h
      obtain ⟨u, hu, hkind⟩ := hbehind h
      exact hcall u hu hkind
    | named ctx name =>
      have hclear : Clear (t :: us) := clear_cons (by simp [ht]) (by simp [ht])
      have hclear' : Clear [] := by rintro u ⟨⟩
      rw [hfocus, run_named hclear] at hsilent
      rw [run_named hclear, List.map_nil, run_named hclear']
      exact value_misses hkinds hsilent
    | value ctx e =>
      rw [hfocus] at hsilent
      exact value_misses hkinds hsilent

/-- **Missing closing parentheses are assumed.** -/
theorem parse_without_parens {ts parens : List Token} {p q : Position}
    (hts : ∀ t ∈ ts, t.InLine) (hparens : ∀ t ∈ parens, t.kind = .rightParen)
    (hcall : ∀ t ∈ ts.getLast?, t.kind ≠ .leftParen)
    (hsilent : Unrepaired (parse (ts ++ parens ++ [endToken p])).diagnostics) :
    Misses parens.length (parse (ts ++ parens ++ [endToken p])) (parse (ts ++ [endToken q])) := by
  have hline : ∀ {us : List Token} (r : Position), (∀ t ∈ us, t.InLine) →
      (parse (us ++ [endToken r])).relocate (fun _ => .start) =
        Focus.idle.run .start (us.map .unplaced) := by
    intro us r hus
    rw [parse, lines_append_end hus, parseLines, parseLines, Parsed.append_empty,
      ← Line.parse_relocate]
    rfl
  have hall : ∀ t ∈ ts ++ parens, t.InLine := by
    refine List.forall_mem_append.mpr ⟨hts, fun t ht => ?_⟩
    simp [Token.InLine, hparens t ht]
  have hwhole := unrepaired_relocate (fun _ => .start) hsilent
  rw [hline p hall] at hwhole
  have hmisses := run_misses hparens hcall hwhole
  rw [← hline p hall, ← hline q hts] at hmisses
  exact hmisses.of_relocate

/-- Brackets of all sorts, the last three of them left open. -/
theorem parse_without_parens_nested :
    let ts := (tokenize "x = max(rand(), -(1 + sin(2").tokens.dropLast
    let parens := (tokenize ")))").tokens.dropLast
    Unrepaired (parse (ts ++ parens ++ [endToken ⟨1, 31⟩])).diagnostics ∧
      Misses 3 (parse (ts ++ parens ++ [endToken ⟨1, 31⟩])) (parse (ts ++ [endToken ⟨1, 28⟩])) := by
  intro ts parens
  have hts : ∀ t ∈ ts, t.kind ≠ .separator ∧ t.kind ≠ .endOfScript := by decide +kernel
  have hparens : ∀ t ∈ parens, t.kind = .rightParen := by decide +kernel
  have hcall : ∀ t ∈ ts.getLast?, t.kind ≠ .leftParen := by decide +kernel
  have hsilent : Unrepaired (parse (ts ++ parens ++ [endToken ⟨1, 31⟩])).diagnostics := by
    decide +kernel
  have hlength : parens.length = 3 := by decide +kernel
  have hmisses := parse_without_parens (q := ⟨1, 28⟩) hts hparens hcall hsilent
  rw [hlength] at hmisses
  exact ⟨hsilent, hmisses⟩

/-! ### Empty argument lists -/

/-- **A call without arguments is one only if its parenthesis closes.** Left open, it gets `0` for
an argument, and the argument is reported missing as well as the parenthesis. -/
theorem parse_empty_call {f l r : Token} (hf : f.kind = .name) (hl : l.kind = .leftParen)
    (hr : r.kind = .rightParen) (p : Position) :
    (parse [f, l, r, endToken p]).statements = [.expr (resolveCall (Text.fold f.text) []).1] ∧
      (parse [f, l, endToken p]).statements =
        [.expr (resolveCall (Text.fold f.text) [.zero]).1] ∧
      (parse [f, l, endToken p]).diagnostics.map (·.issue) =
        .missingOperand :: .missingParen :: (resolveCall (Text.fold f.text) [.zero]).2 := by
  -- both texts begin alike: behind the parenthesis an operand is awaited
  have hcall : ∀ rest : List Token, (∀ t ∈ rest, t.InLine) →
      parse (f :: l :: rest ++ [endToken p]) =
        (Focus.operand ⟨none, [.call (Text.fold f.text) []]⟩).run p rest := by
    intro rest hrest
    have hin : ∀ t ∈ f :: l :: rest, t.InLine := by
      refine List.forall_mem_cons.mpr ⟨by simp [Token.InLine, hf], ?_⟩
      exact List.forall_mem_cons.mpr ⟨by simp [Token.InLine, hl], hrest⟩
    rw [parse, lines_append_end hin, parseLines, parseLines, Parsed.append_empty, Line.parse,
      run_idle (.inr (.inl hf)), run_operand_name hf, run_named_leftParen hl]
  have hclosed : Reports (resolveCall (Text.fold f.text) []).2 (parse [f, l, r, endToken p])
      ⟨[.expr (resolveCall (Text.fold f.text) []).1], []⟩ :=
    .of_eq_trans (hcall [r] (List.forall_mem_singleton.mpr (by simp [Token.InLine, hr])))
      (run_operand_closeCall hr)
  have hopen : Reports ([.missingOperand] ++ ([.missingParen] ++
        (resolveCall (Text.fold f.text) [.zero]).2)) (parse [f, l, endToken p])
      ⟨[.expr (resolveCall (Text.fold f.text) [.zero]).1], []⟩ := by
    obtain ⟨q, hmissing, hissues⟩ : ∃ q,
        Reports _ ((Focus.value ⟨none, [.call (Text.fold f.text) []]⟩ .zero).run p []) q ∧ _ :=
      run_call_nil
    refine .of_eq_trans (hcall [] (by rintro t ⟨⟩)) ?_
    exact .trans ⟨[⟨.missingOperand, p⟩], rfl, rfl⟩ (hmissing.trans hissues)
  refine ⟨hclosed.statements, hopen.statements, ?_⟩
  rw [hopen.issues]
  exact List.append_nil _

/-- The parenthesis of `rand()` is not assumed: without it the program is another one, and a missing
operand is reported beside the missing parenthesis. -/
theorem not_misses_rand :
    let f : Token := ⟨.name, "rand", ⟨1, 1⟩⟩
    let l : Token := ⟨.leftParen, "(", ⟨1, 5⟩⟩
    let r : Token := ⟨.rightParen, ")", ⟨1, 6⟩⟩
    Unrepaired (parse [f, l, r, endToken ⟨1, 7⟩]).diagnostics ∧
      (parse [f, l, endToken ⟨1, 6⟩]).statements ≠
        (parse [f, l, r, endToken ⟨1, 7⟩]).statements ∧
      (parse [f, l, endToken ⟨1, 6⟩]).diagnostics.map (·.issue) =
        [.missingOperand, .missingParen] := by
  intro f l r
  have hempty := fun p => parse_empty_call (f := f) (l := l) (r := r) rfl rfl rfl p
  refine ⟨by decide +kernel, ?_, by decide +kernel⟩
  rw [(hempty ⟨1, 6⟩).2.1, (hempty ⟨1, 7⟩).1]
  have hname : Text.fold "rand" ≠ assignName := by decide +kernel
  simp [f, resolveCall, hname]

end PointScope.Script
