import PointScope.Proofs.Script.Noticing

/-!
# What a diagnostic points at

Three issues quote a token of the script: one that can start no statement, an operator where an
operand should start, and the name of an unknown function. A diagnostic stands where the parser
stands when it reports, and only the first of these is reported before the token has been read. The
second is reported when the parser stands at the token behind the operator, and the third when it
has read the whole call. So a diagnostic points at the token that it quotes or at a later one, and
`Issue.Concerns` says which (`diagnostics_point`); it is not always the token that is quoted
(`not_points_at_quoted`).

For the functions the parser has to be followed from the name to the end of the call. The invariant
is `Focus.Knows`: whatever calls are open, their names and opening parentheses are among the tokens
behind the parser, and no separator has come since.
-/

namespace PointScope.Script

/-! ### Tokens that are quoted -/

/-- The piece of the script that the parser quotes in an issue. -/
def Issue.quoted? : Issue → Option String
  | .unexpectedToken text | .misplacedOperator text | .unknownFunction text => some text
  | _ => none

/-- In the line that these tokens end with, a call of the function has been opened. -/
def Called (behind : List Token) (name : String) : Prop :=
  ∃ before f l inner, behind = before ++ f :: l :: inner ∧ f.kind = .name ∧
    Text.fold f.text = name ∧ l.kind = .leftParen ∧ ∀ t ∈ inner, t.InLine

/-- What has to do with an issue that is reported at `u`, behind the tokens `behind`: a misplaced
token is `u`, a misplaced operator is the last token behind, and a call of an unknown function has
just ended there, with its parenthesis or, if that is reported too, without. -/
def Issue.Concerns (behind : List Token) (u : Token) (noted : List Diagnostic) : Issue → Prop
  | .unexpectedToken text => u.text = text
  | .misplacedOperator text =>
    ∃ t ∈ behind.getLast?, t.text = text ∧ ∃ op, t.kind = .operator op ∧ op.unary? = none
  | .unknownFunction name =>
    Called behind name ∧
      ((∃ t ∈ behind.getLast?, t.kind = .rightParen) ∨ ⟨.missingParen, u.position⟩ ∈ noted)
  | _ => True

/-- A diagnostic among those that are noted stands at the token that its issue makes it stand at. -/
def Diagnostic.Points (tokens : List Token) (noted : List Diagnostic) (d : Diagnostic) : Prop :=
  ∃ behind u rest, tokens = behind ++ u :: rest ∧ d.position = u.position ∧
    d.issue.Concerns behind u noted

section Concerns

variable {behind : List Token} {names : List String} {t u : Token} {noted : List Diagnostic}
  {i : Issue}

/-- A call that is open is still open behind another token of the line. -/
theorem Called.concat {name : String} (h : Called behind name) (ht : t.InLine) :
    Called (behind ++ [t]) name := by
  obtain ⟨before, f, l, inner, rfl, hf, hname, hl, hinner⟩ := h
  refine ⟨before, f, l, inner ++ [t], by simp, hf, hname, hl, ?_⟩
  exact List.forall_mem_append.mpr ⟨hinner, List.forall_mem_singleton.mpr ht⟩

theorem Issue.Concerns.mono {noted' : List Diagnostic} (h : i.Concerns behind u noted)
    (hnoted : noted ⊆ noted') : i.Concerns behind u noted' := by
  cases i with
  | unknownFunction name => exact ⟨h.1, h.2.imp_right fun hmissing => hnoted hmissing⟩
  | _ => exact h

/-- A diagnostic points to the same place whatever else is noted. -/
theorem Diagnostic.Points.mono {tokens : List Token} {noted' : List Diagnostic} {d : Diagnostic}
    (h : d.Points tokens noted) (hnoted : noted ⊆ noted') : d.Points tokens noted' := by
  obtain ⟨behind, u, rest, htokens, hposition, hconcerns⟩ := h
  exact ⟨behind, u, rest, htokens, hposition, hconcerns.mono hnoted⟩

/-- The issues with a call all concern its end. -/
theorem concerns_of_resolveCall {name : String} {args : List Expr}
    (hi : i ∈ (resolveCall name args).2) (hcalled : Called behind name)
    (hended : (∃ t ∈ behind.getLast?, t.kind = .rightParen) ∨
      ⟨.missingParen, u.position⟩ ∈ noted) : i.Concerns behind u noted := by
  rcases resolveCall_issue hi with rfl | rfl | rfl | rfl
  · exact ⟨hcalled, hended⟩
  · trivial
  · trivial
  · trivial

/-- What is noticed before `t` is read. -/
theorem Here.concerns {here : List Issue} (h : Here names t here i)
    (hnames : ∀ name ∈ names, Called behind name)
    (hhere : here.map (⟨·, t.position⟩) ⊆ noted) : i.Concerns behind t noted := by
  cases h with
  | unexpected => rfl
  | operand => trivial
  | paren => trivial
  | call hname hi hparen =>
    exact concerns_of_resolveCall hi (hnames _ hname) (.inr (hhere (List.mem_map_of_mem hparen)))

/-- What is noticed when `t` has been read. -/
theorem There.concerns (h : There names t i) (hnames : ∀ name ∈ names, Called behind name) :
    i.Concerns (behind ++ [t]) u noted := by
  have hlast : t ∈ (behind ++ [t]).getLast? := List.getLast?_concat
  cases h with
  | operator ht hop => exact ⟨t, hlast, rfl, _, ht, hop⟩
  | call hname hi ht =>
    have hinline : t.InLine := by simp [Token.InLine, ht]
    exact concerns_of_resolveCall hi ((hnames _ hname).concat hinline) (.inl ⟨t, hlast, ht⟩)

end Concerns

/-! ### Open calls -/

/-- A name that the parser stands behind is that of the last token it has read. -/
def Focus.NamedBy (last : Option Token) : Focus → Prop
  | .named _ name => ∃ t ∈ last, t.kind = .name ∧ Text.fold t.text = name
  | _ => True

/-- Behind `t` there are only open calls of the given functions. -/
structure Focus.Within (names : List String) (t : Token) (focus : Focus) : Prop where
  callees : focus.callees ⊆ names
  named : focus.NamedBy (some t)

section Within

variable {names : List String} {ctx : Context} {t : Token} {next : Position} {s : Step}

theorem Focus.Within.mono {focus : Focus} {names' : List String} (h : focus.Within names t)
    (hnames : names ⊆ names') : focus.Within names' t :=
  ⟨List.Subset.trans h.callees hnames, h.named⟩

private theorem startOperand_within (hs : startOperand ctx t next = some s) :
    s.focus.Within (callees ctx.frames) t := by
  unfold startOperand at hs
  split at hs
  · cases hs
    exact ⟨List.Subset.refl _, trivial⟩
  · cases hs
    exact ⟨List.Subset.refl _, t, rfl, ‹_›, rfl⟩
  · cases hs
    exact ⟨List.Subset.refl _, trivial⟩
  · split at hs
    · cases hs
      exact ⟨List.Subset.refl _, trivial⟩
    · cases hs
      exact ⟨List.Subset.refl _, trivial⟩
  · cases hs

private theorem stepIdle_within : (stepIdle t next).focus.Within [] t := by
  unfold stepIdle
  split
  · exact startOperand_within ‹startOperand {} t next = _›
  · exact ⟨List.nil_subset _, trivial⟩

private theorem continueValue_within {e : Expr} {kind : TokenKind}
    (hs : continueValue ctx e kind next = some s) : s.focus.Within (callees ctx.frames) t := by
  unfold continueValue at hs
  split at hs
  · split at hs
    · cases hs
      exact ⟨List.Subset.refl _, trivial⟩
    · cases hs
  · cases hs
    exact ⟨‹ctx.frames = _› ▸ List.Subset.refl _, trivial⟩
  · cases hs
    exact ⟨‹ctx.frames = _› ▸ List.subset_cons_self _ _, trivial⟩
  · cases hs
    exact ⟨‹ctx.frames = _› ▸ List.Subset.refl _, trivial⟩
  · cases hs

private theorem stepValue_within (e : Expr) :
    (stepValue ctx e t next).focus.Within (callees ctx.frames) t := by
  obtain ⟨-, hsuffix⟩ := settle_here (t := t) (Frame.staysOpen t.kind) ctx.frames e
  change (Option.getD (continueValue { ctx with frames := _ } _ t.kind next) _).focus.Within _ t
  cases hcontinue : continueValue { ctx with frames := _ } _ t.kind next with
  | some s => exact (continueValue_within hcontinue).mono (hsuffix.filterMap _).subset
  | none => exact stepIdle_within.mono (List.nil_subset _)

private theorem stepOperand_within :
    (stepOperand ctx t next).focus.Within (callees ctx.frames) t := by
  unfold stepOperand
  split
  · exact ⟨‹ctx.frames = _› ▸ List.subset_cons_self _ _, trivial⟩
  · split
    · exact startOperand_within ‹_›
    · exact stepValue_within .zero

end Within

/-- The parser knows the calls that are open where it stands, and the name that it stands behind, if
it does, from the tokens that it has read. -/
structure Focus.Knows (behind : List Token) (focus : Focus) : Prop where
  called : ∀ name ∈ focus.callees, Called behind name
  named : focus.NamedBy behind.getLast?

theorem Focus.Knows.idle (behind : List Token) : Focus.idle.Knows behind :=
  ⟨List.forall_mem_nil _, trivial⟩

/-- A parser that is within known calls knows them. -/
private theorem Focus.Within.knows {names : List String} {behind : List Token} {t : Token}
    {focus : Focus} (h : focus.Within names t)
    (hnames : ∀ name ∈ names, Called (behind ++ [t]) name) : focus.Knows (behind ++ [t]) := by
  refine ⟨fun name hname => hnames name (h.callees hname), ?_⟩
  rw [List.getLast?_concat]
  exact h.named

/-- **One token.** What the parser knew it knows, and so it does a call that the token opens. -/
theorem Focus.Knows.step {behind : List Token} {focus : Focus} (h : focus.Knows behind)
    {t : Token} (ht : t.InLine) (next : Position) :
    (focus.step t next).focus.Knows (behind ++ [t]) := by
  have hcalled : ∀ name ∈ focus.callees, Called (behind ++ [t]) name :=
    fun name hname => (h.called name hname).concat ht
  cases focus with
  | idle => exact stepIdle_within.knows (List.forall_mem_nil _)
  | operand ctx => exact stepOperand_within.knows hcalled
  | value ctx e => exact (stepValue_within e).knows hcalled
  | named ctx name =>
    -- the name was read last, so a parenthesis right behind it makes it a call
    obtain ⟨f, hlast, hf, hname⟩ := h.named
    obtain ⟨before, rfl⟩ := List.getLast?_eq_some_iff.mp hlast
    rw [Focus.step]
    unfold stepNamed
    split
    · have hopened : Called (before ++ [f] ++ [t]) name :=
        ⟨before, f, t, [], by simp, hf, hname, ‹_›, List.forall_mem_nil _⟩
      exact ⟨List.forall_mem_cons.mpr ⟨hopened, hcalled⟩, trivial⟩
    · exact ⟨List.forall_mem_nil _, trivial⟩
    · exact (stepValue_within _).knows hcalled

/-! ### The walk over the tokens -/

section Read

variable {behind rest : List Token} {t u : Token} {noted : List Diagnostic}

/-- What is noticed at a token points at it. -/
private theorem points_here {names : List String} {here : List Issue}
    (hhere : ∀ i ∈ here, Here names t here i) (hnames : ∀ name ∈ names, Called behind name) :
    ∀ d ∈ here.map (Diagnostic.mk · t.position),
      d.Points (behind ++ t :: rest) (here.map (⟨·, t.position⟩)) :=
  List.forall_mem_map.mpr fun i hi =>
    ⟨behind, t, rest, rfl, rfl, (hhere i hi).concerns hnames (List.Subset.refl _)⟩

/-- What is noticed behind a token points at the next one. -/
private theorem points_there {names : List String} {there : List Issue}
    (hthere : ∀ i ∈ there, There names t i) (hnames : ∀ name ∈ names, Called behind name) :
    ∀ d ∈ there.map (Diagnostic.mk · u.position),
      d.Points (behind ++ t :: u :: rest) (there.map (⟨·, u.position⟩)) :=
  List.forall_mem_map.mpr fun i hi =>
    ⟨behind ++ [t], u, rest, by simp, rfl, (hthere i hi).concerns hnames⟩

end Read

/-- On the whole walk every diagnostic points at what its issue concerns. -/
theorem Walk.points {focus : Focus} {ts behind : List Token} {ds : List Diagnostic}
    (h : Walk focus ts ds) (hknows : focus.Knows behind) :
    ∀ d ∈ ds, d.Points (behind ++ ts) ds := by
  induction h generalizing behind with
  | stop hhere => exact points_here hhere hknows.called
  | @next focus focus' t u us here there ds hhere hthere hfocus h ih =>
    have hknows' : focus'.Knows (behind ++ [t]) := by
      rcases hfocus with rfl | ⟨ht, rfl⟩
      · exact .idle _
      · exact hknows.step ht _
    have hrest := ih hknows'
    rw [List.append_assoc, List.singleton_append] at hrest
    refine List.forall_mem_append.mpr ⟨fun d hd => ?_, List.forall_mem_append.mpr
      ⟨fun d hd => ?_, fun d hd => ?_⟩⟩
    · exact (points_here hhere hknows.called d hd).mono (List.subset_append_left _ _)
    · refine (points_there hthere hknows.called d hd).mono fun d' hd' => ?_
      exact List.mem_append_right _ (List.mem_append_left _ hd')
    · refine (hrest d hd).mono fun d' hd' => ?_
      exact List.mem_append_right _ (List.mem_append_right _ hd')

/-- **What the parser points at.** Every diagnostic of the parser stands at a token of the script,
the end included: one that says that a token is unexpected, at that token; one that says that an
operator cannot start an expression, at the token behind the operator; and one that says that a
function is unknown, at the token behind the whole call, which began in the same line. -/
theorem diagnostics_point (source : String) :
    let tokens := (tokenize source).tokens
    let parsed := (parse tokens).diagnostics
    (compile source).diagnostics = (tokenize source).diagnostics ++ parsed ∧
      ∀ d ∈ parsed, d.Points tokens parsed :=
  ⟨rfl, (Focus.idle.read_walk (exists_end_mem source)).points (.idle [])⟩

/-- It is not always the token that is quoted: the operator that this script consists of is quoted
at the end of the script. -/
theorem not_points_at_quoted :
    ¬ ∀ source, ∀ d ∈ (parse (tokenize source).tokens).diagnostics, ∀ text ∈ d.issue.quoted?,
      ∃ t ∈ (tokenize source).tokens, d.position = t.position ∧
        Text.fold t.text = Text.fold text := by
  intro h
  have hparse : ⟨.misplacedOperator "*", ⟨1, 2⟩⟩ ∈ (parse (tokenize "*").tokens).diagnostics := by
    decide +kernel
  have hnone : ¬ ∃ t ∈ (tokenize "*").tokens, (⟨1, 2⟩ : Position) = t.position ∧
      Text.fold t.text = Text.fold "*" := by
    decide +kernel
  exact hnone (h "*" _ hparse "*" rfl)

end PointScope.Script
