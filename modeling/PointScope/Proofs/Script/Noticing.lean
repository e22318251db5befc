import PointScope.Proofs.Script.Positions
import PointScope.Proofs.Script.Reading

/-!
# Diagnostics come in the order of the script

When the parser reads a token, it may notice something at two places: where the token stands, before
it has read it, and where the next token stands, after that. What it may notice at either place is
in `Here` and `There`; whatever the focus is, a step reports some issues of the first sort and then
some of the second (`Focus.step_notes`). At the end of a line, where nothing is read, there are only
issues of the first sort (`Focus.finish_here`).

The place at which one step ends is the one at which the next starts. So the parser walks over the
tokens (`Focus.read_walk`) and leaves its diagnostics on the way, any number of them at each token
in turn (`Walk.noted`). Their positions never go back, since those of the tokens do not
(`diagnostics_ordered`).
-/

namespace PointScope.Script

/-! ### What may be noticed -/

/-- The function of a call whose arguments are being read. -/
def Frame.callee? : Frame → Option String
  | .call name _ => some name
  | _ => none

/-- The functions whose calls are open. -/
def callees (fs : List Frame) : List String := fs.filterMap Frame.callee?

/-- The functions whose calls are open where the parser stands. -/
def Focus.callees : Focus → List String
  | .idle => []
  | .operand ctx | .named ctx _ | .value ctx _ => Script.callees ctx.frames

/-- An issue that is noticed where `t` stands, before `t` is read; `here` is all that is noticed
there. What is wrong with a call is noticed there only if its parenthesis is missing. -/
inductive Here (names : List String) (t : Token) (here : List Issue) : Issue → Prop
  | unexpected : Here names t here (.unexpectedToken t.text)
  | operand : Here names t here .missingOperand
  | paren : Here names t here .missingParen
  | call {name : String} {args : List Expr} {i : Issue} (hname : name ∈ names)
      (hi : i ∈ (resolveCall name args).2) (hparen : .missingParen ∈ here) : Here names t here i

/-- An issue that is noticed where the next token stands, after `t` has been read. -/
inductive There (names : List String) (t : Token) : Issue → Prop
  | operator {op : Operator} (ht : t.kind = .operator op) (hop : op.unary? = none) :
      There names t (.misplacedOperator t.text)
  | call {name : String} {args : List Expr} {i : Issue} (hname : name ∈ names)
      (hi : i ∈ (resolveCall name args).2) (ht : t.kind = .rightParen) : There names t i

/-- A step over `t` reports issues where `t` stands, and then issues where the next token does. -/
def Step.Notes (names : List String) (t : Token) (next : Position) (s : Step) : Prop :=
  ∃ here there : List Issue,
    s.diagnostics = here.map (⟨·, t.position⟩) ++ there.map (⟨·, next⟩) ∧
    (∀ i ∈ here, Here names t here i) ∧ ∀ i ∈ there, There names t i

/-- The issues with a call are about its name, or about the arguments of `assign`. -/
theorem resolveCall_issue {name : String} {args : List Expr} {i : Issue}
    (hi : i ∈ (resolveCall name args).2) :
    i = .unknownFunction name ∨ i = .extraAssignArguments ∨ i = .assignWithoutTarget ∨
      i = .unwritableTarget := by
  have hassignTo : ∀ target value : Expr, i ∈ (target.assignTo value).2 →
      i = .unwritableTarget := by
    intro target value hi
    unfold Expr.assignTo at hi
    split at hi <;> simp_all
  unfold resolveCall at hi
  split at hi
  · cases args with
    | nil => exact .inr (.inr (.inl (List.mem_singleton.mp hi)))
    | cons target rest =>
      rcases List.mem_append.mp hi with hi | hi
      · exact .inr (.inl (by split at hi <;> simp_all))
      · exact .inr (.inr (.inr (hassignTo _ _ hi)))
  · dsimp only at hi
    exact .inl (by split at hi <;> simp_all)

private theorem resolveCall_stage {name : String} {args : List Expr} {i : Issue}
    (hi : i ∈ (resolveCall name args).2) : i.stage = .parse := by
  rcases resolveCall_issue hi with rfl | rfl | rfl | rfl <;> rfl

section Kinds

variable {names : List String} {t : Token} {here : List Issue} {i : Issue}

theorem Here.stage (h : Here names t here i) : i.stage = .parse := by
  cases h with
  | call hname hi hparen => exact resolveCall_stage hi
  | _ => rfl

theorem There.stage (h : There names t i) : i.stage = .parse := by
  cases h with
  | operator ht hop => rfl
  | call hname hi ht => exact resolveCall_stage hi

/-- More calls may be open, and more may be noticed. -/
theorem Here.mono {names' : List String} {here' : List Issue} (h : Here names t here i)
    (hnames : names ⊆ names') (hhere : here ⊆ here') : Here names' t here' i := by
  cases h with
  | unexpected => exact .unexpected
  | operand => exact .operand
  | paren => exact .paren
  | call hname hi hparen => exact .call (hnames hname) hi (hhere hparen)

/-- With more calls open the same can be noticed at the next token. -/
theorem There.mono {names' : List String} (h : There names t i) (hnames : names ⊆ names') :
    There names' t i := by
  cases h with
  | operator ht hop => exact .operator ht hop
  | call hname hi ht => exact .call (hnames hname) hi ht

end Kinds

/-! ### One token -/

section Steps

variable {names : List String} {t : Token} {next : Position} {s : Step}

/-- Issues that are noticed before all others at a token. -/
private theorem here_append {is js : List Issue} (his : ∀ i ∈ is, Here names t is i)
    (hjs : ∀ i ∈ js, Here names t js i) : ∀ i ∈ is ++ js, Here names t (is ++ js) i := by
  refine List.forall_mem_append.mpr ⟨fun i hi => ?_, fun i hi => ?_⟩
  · exact (his i hi).mono (List.Subset.refl _) (List.subset_append_left _ _)
  · exact (hjs i hi).mono (List.Subset.refl _) (List.subset_append_right _ _)

theorem Step.Notes.mono {names' : List String} (h : s.Notes names t next)
    (hnames : names ⊆ names') : s.Notes names' t next := by
  obtain ⟨here, there, heq, hhere, hthere⟩ := h
  exact ⟨here, there, heq, fun i hi => (hhere i hi).mono hnames (List.Subset.refl _),
    fun i hi => (hthere i hi).mono hnames⟩

theorem Step.Notes.report (h : s.Notes names t next) {issues : List Issue}
    (hissues : ∀ i ∈ issues, Here names t issues i) :
    (s.report issues t.position).Notes names t next := by
  obtain ⟨here, there, heq, hhere, hthere⟩ := h
  refine ⟨issues ++ here, there, ?_, here_append hissues hhere, hthere⟩
  rw [Step.report, heq, List.map_append, List.append_assoc]

private theorem Step.Notes.nothing {focus : Focus} : Step.Notes names t next { focus } :=
  ⟨[], [], rfl, List.forall_mem_nil _, List.forall_mem_nil _⟩

theorem Step.Notes.after {issues : List Issue} (hissues : ∀ i ∈ issues, There names t i)
    {focus : Focus} : (Step.report issues next { focus }).Notes names t next :=
  ⟨[], issues, List.append_nil _, List.forall_mem_nil _, hissues⟩

private theorem startOperand_notes {ctx : Context} (hs : startOperand ctx t next = some s) :
    s.Notes names t next := by
  unfold startOperand at hs
  split at hs
  · cases hs
    exact .nothing
  · cases hs
    exact .nothing
  · cases hs
    exact .nothing
  · split at hs
    · cases hs
      exact .nothing
    · cases hs
      exact .after (List.forall_mem_singleton.mpr (.operator ‹_› ‹_›))
  · cases hs

private theorem stepIdle_notes : (stepIdle t next).Notes names t next := by
  unfold stepIdle
  split
  · exact startOperand_notes ‹_›
  · exact Step.Notes.nothing.report (List.forall_mem_singleton.mpr .unexpected)

private theorem endStatement_notes (statement : Statement) :
    (endStatement statement t next).Notes names t next := by
  obtain ⟨here, there, heq, hnotes⟩ : (stepIdle t next).Notes names t next := stepIdle_notes
  exact ⟨here, there, heq, hnotes⟩

private theorem closeCall_notes (ctx : Context) {name : String} (hname : name ∈ names)
    (args : List Expr) (ht : t.kind = .rightParen) :
    (closeCall ctx name args next).Notes names t next :=
  .after fun _ hi => .call hname hi ht

private theorem continueValue_notes {ctx : Context} {e : Expr}
    (hs : continueValue ctx e t.kind next = some s) : s.Notes (callees ctx.frames) t next := by
  unfold continueValue at hs
  split at hs
  · split at hs
    · cases hs
      exact .nothing
    · cases hs
  · cases hs
    exact .nothing
  · rename_i name args outer hkind hframes
    cases hs
    rw [hframes]
    exact closeCall_notes _ List.mem_cons_self _ hkind
  · cases hs
    exact .nothing
  · cases hs

/-- The issues with a frame that is completed come with a missing parenthesis. -/
private theorem complete_here (f : Frame) (e : Expr) :
    ∀ i ∈ (f.complete e).2, Here (callees [f]) t (f.complete e).2 i := by
  cases f with
  | right op left => exact List.forall_mem_nil _
  | unary op => exact List.forall_mem_nil _
  | group => exact List.forall_mem_singleton.mpr .paren
  | call name args =>
    refine List.forall_mem_cons.mpr ⟨.paren, fun i hi => ?_⟩
    exact .call (List.mem_singleton_self name) hi List.mem_cons_self

/-- So do those with all frames that are completed, and those that are left were there before. -/
theorem settle_here (staysOpen : Frame → Bool) (fs : List Frame) (e : Expr) :
    (∀ i ∈ (settle staysOpen fs e).2.2, Here (callees fs) t (settle staysOpen fs e).2.2 i) ∧
      (settle staysOpen fs e).1 <:+ fs := by
  induction fs generalizing e with
  | nil => exact ⟨List.forall_mem_nil _, List.suffix_rfl⟩
  | cons f fs ih =>
    rw [settle]
    split
    · exact ⟨List.forall_mem_nil _, List.suffix_rfl⟩
    · obtain ⟨hissues, hsuffix⟩ := ih (f.complete e).1
      have hfirst : callees [f] ⊆ callees (f :: fs) :=
        ((List.prefix_append [f] fs).filterMap _).subset
      have hrest : callees fs ⊆ callees (f :: fs) :=
        ((List.suffix_cons f fs).filterMap _).subset
      refine ⟨here_append (fun i hi => ?_) (fun i hi => ?_), hsuffix.trans (List.suffix_cons f fs)⟩
      · exact (complete_here f e i hi).mono hfirst (List.Subset.refl _)
      · exact (hissues i hi).mono hrest (List.Subset.refl _)

private theorem stepValue_notes (ctx : Context) (e : Expr) :
    (stepValue ctx e t next).Notes (callees ctx.frames) t next := by
  obtain ⟨hissues, hsuffix⟩ := settle_here (t := t) (Frame.staysOpen t.kind) ctx.frames e
  refine Step.Notes.report ?_ hissues
  cases hcontinue : continueValue { ctx with frames := _ } _ t.kind next with
  | some s => exact (continueValue_notes hcontinue).mono (hsuffix.filterMap _).subset
  | none => exact endStatement_notes _

private theorem stepOperand_notes (ctx : Context) :
    (stepOperand ctx t next).Notes (callees ctx.frames) t next := by
  unfold stepOperand
  split
  · rename_i name outer hkind hframes
    rw [hframes]
    exact closeCall_notes _ List.mem_cons_self _ hkind
  · split
    · exact startOperand_notes ‹_›
    · exact (stepValue_notes ctx .zero).report (List.forall_mem_singleton.mpr .operand)

private theorem stepNamed_notes (ctx : Context) (name : String) :
    (stepNamed ctx name t next).Notes (callees ctx.frames) t next := by
  unfold stepNamed
  split
  · exact .nothing
  · exact .nothing
  · exact stepValue_notes _ _

/-- **What a step reports.** -/
theorem Focus.step_notes (focus : Focus) (t : Token) (next : Position) :
    (focus.step t next).Notes focus.callees t next := by
  cases focus with
  | idle => exact stepIdle_notes
  | operand ctx => exact stepOperand_notes ctx
  | named ctx name => exact stepNamed_notes ctx name
  | value ctx e => exact stepValue_notes ctx e

/-- **What is reported at the end of a line** is noticed where it ends. -/
theorem Focus.finish_here (focus : Focus) (t : Token) :
    ∃ here, (focus.finish t.position).diagnostics = here.map (⟨·, t.position⟩) ∧
      ∀ i ∈ here, Here focus.callees t here i := by
  have hvalue : ∀ ctx e, ∃ here,
      (finishValue ctx e t.position).diagnostics = here.map (⟨·, t.position⟩) ∧
        ∀ i ∈ here, Here (Script.callees ctx.frames) t here i :=
    fun ctx e => ⟨_, rfl, (settle_here _ ctx.frames e).1⟩
  cases focus with
  | idle => exact ⟨[], rfl, List.forall_mem_nil _⟩
  | operand ctx =>
    obtain ⟨here, heq, hhere⟩ := hvalue ctx .zero
    refine ⟨[.missingOperand] ++ here, ?_, ?_⟩
    · rw [List.map_append, ← heq]
      rfl
    · exact here_append (List.forall_mem_singleton.mpr .operand) hhere
  | named ctx name => exact hvalue ctx (.var name)
  | value ctx e => exact hvalue ctx e

end Steps

/-! ### The walk over the tokens -/

section Read

variable (focus : Focus) {t : Token} (ts : List Token)

private theorem Focus.read_step (ht : t.InLine) :
    focus.read (t :: ts) =
      ⟨(focus.step t (headPosition ts)).statements,
          (focus.step t (headPosition ts)).diagnostics⟩ ++
        (focus.step t (headPosition ts)).focus.read ts := by
  rw [read, splitLines_cons ht, Focus.run, (splitLines_head ts).1, Parsed.append_assoc]
  rfl

private theorem Focus.read_separator (ht : t.kind = .separator) :
    focus.read (t :: ts) = focus.finish t.position ++ Focus.idle.read ts := by
  rw [read, splitLines_separator ht]
  rfl

private theorem Focus.read_end (ht : t.kind = .endOfScript) :
    focus.read (t :: ts) = focus.finish t.position := by
  rw [read, splitLines_end ht]
  exact Parsed.append_empty _

end Read

/-- The walk of the parser over tokens, from a focus on, and the diagnostics that it leaves. At the
end of a line it goes on between statements. -/
inductive Walk : Focus → List Token → List Diagnostic → Prop
  | stop {focus : Focus} {t : Token} {ts : List Token} {here : List Issue}
      (hhere : ∀ i ∈ here, Here focus.callees t here i) :
      Walk focus (t :: ts) (here.map (⟨·, t.position⟩))
  | next {focus focus' : Focus} {t u : Token} {us : List Token} {here there : List Issue}
      {ds : List Diagnostic} (hhere : ∀ i ∈ here, Here focus.callees t here i)
      (hthere : ∀ i ∈ there, There focus.callees t i)
      (hfocus : focus' = .idle ∨ t.InLine ∧ focus' = (focus.step t u.position).focus)
      (h : Walk focus' (u :: us) ds) :
      Walk focus (t :: u :: us)
        (here.map (⟨·, t.position⟩) ++ (there.map (⟨·, u.position⟩) ++ ds))

/-- The parser walks over the tokens up to the end of the script. -/
theorem Focus.read_walk (focus : Focus) {ts : List Token}
    (hend : ∃ t ∈ ts, t.kind = .endOfScript) : Walk focus ts (focus.read ts).diagnostics := by
  induction ts generalizing focus with
  | nil => exact absurd hend (by simp)
  | cons t ts ih =>
    -- the walk stops at the end, starts anew at a separator and goes on otherwise
    by_cases hkind : t.kind = .endOfScript
    · obtain ⟨here, hfinish, hhere⟩ := focus.finish_here t
      rw [focus.read_end ts hkind, hfinish]
      exact .stop hhere
    obtain ⟨u, us, rfl⟩ : ∃ u us, ts = u :: us := by
      cases ts with
      | nil => simp [hkind] at hend
      | cons u us => exact ⟨u, us, rfl⟩
    have hrest : ∃ t ∈ u :: us, t.kind = .endOfScript := by simpa [hkind] using hend
    by_cases hseparator : t.kind = .separator
    · obtain ⟨here, hfinish, hhere⟩ := focus.finish_here t
      have hread : (focus.read (t :: u :: us)).diagnostics =
          here.map (⟨·, t.position⟩) ++ (Focus.idle.read (u :: us)).diagnostics := by
        rw [focus.read_separator _ hseparator, ← hfinish]
        rfl
      rw [hread]
      have hthere : ∀ i ∈ [], There focus.callees t i := List.forall_mem_nil _
      exact .next hhere hthere (.inl rfl) (ih .idle hrest)
    · have hinline : t.InLine := ⟨hseparator, hkind⟩
      obtain ⟨here, there, hstep, hhere, hthere⟩ := focus.step_notes t u.position
      have hread : (focus.read (t :: u :: us)).diagnostics =
          here.map (⟨·, t.position⟩) ++ (there.map (⟨·, u.position⟩) ++
            ((focus.step t u.position).focus.read (u :: us)).diagnostics) := by
        rw [focus.read_step _ hinline, ← List.append_assoc, ← hstep]
        rfl
      rw [hread]
      exact .next hhere hthere (.inr ⟨hinline, rfl⟩) (ih _ hrest)

theorem Walk.stage {focus : Focus} {ts : List Token} {ds : List Diagnostic}
    (h : Walk focus ts ds) : ∀ d ∈ ds, d.issue.stage = .parse := by
  induction h with
  | stop hhere => exact List.forall_mem_map.mpr fun i hi => (hhere i hi).stage
  | next hhere hthere hfocus h ih =>
    refine List.forall_mem_append.mpr ⟨?_, List.forall_mem_append.mpr ⟨?_, ih⟩⟩
    · exact List.forall_mem_map.mpr fun i hi => (hhere i hi).stage
    · exact List.forall_mem_map.mpr fun i hi => (hthere i hi).stage

/-! ### The order of the diagnostics -/

/-- Diagnostics that are left on a walk over tokens: at each token in turn any number of them. -/
inductive Noted : List Token → List Diagnostic → Prop
  | done (ts : List Token) : Noted ts []
  | here {t : Token} {ts : List Token} {d : Diagnostic} {ds : List Diagnostic}
      (hd : d.position = t.position) (h : Noted (t :: ts) ds) : Noted (t :: ts) (d :: ds)
  | on {t : Token} {ts : List Token} {ds : List Diagnostic} (h : Noted ts ds) : Noted (t :: ts) ds

namespace Noted

variable {t : Token} {ts : List Token} {ds : List Diagnostic}

theorem report (h : Noted (t :: ts) ds) (issues : List Issue) :
    Noted (t :: ts) (issues.map (⟨·, t.position⟩) ++ ds) := by
  induction issues with
  | nil => exact h
  | cons i issues ih => exact .here rfl ih

/-- Every diagnostic stands at a token. -/
private theorem exists_token (h : Noted ts ds) : ∀ d ∈ ds, ∃ t ∈ ts, d.position = t.position := by
  induction h with
  | done ts => exact List.forall_mem_nil _
  | here hd h ih => exact List.forall_mem_cons.mpr ⟨⟨_, List.mem_cons_self, hd⟩, ih⟩
  | on h ih =>
    intro d hd
    obtain ⟨t, ht, hposition⟩ := ih d hd
    exact ⟨t, List.mem_cons_of_mem _ ht, hposition⟩

/-- If the tokens stand one behind the other, no diagnostic stands before an earlier one. -/
theorem pairwise (h : Noted ts ds)
    (hts : ts.Pairwise fun t u => t.position.Before u.position) :
    ds.Pairwise fun d e => d.position = e.position ∨ d.position.Before e.position := by
  induction h with
  | done ts => exact .nil
  | @here t ts d ds hd h ih =>
    refine List.pairwise_cons.mpr ⟨fun e he => ?_, ih hts⟩
    obtain ⟨u, hu, hposition⟩ := h.exists_token e he
    rw [hd, hposition]
    rcases List.mem_cons.mp hu with rfl | hu
    · exact .inl rfl
    · exact .inr ((List.pairwise_cons.mp hts).1 u hu)
  | on h ih => exact ih (List.pairwise_cons.mp hts).2

end Noted

/-- **The diagnostics of a walk** stand at its tokens, in their order. -/
theorem Walk.noted {focus : Focus} {ts : List Token} {ds : List Diagnostic}
    (h : Walk focus ts ds) : Noted ts ds := by
  induction h with
  | @stop focus t ts here hhere => exact List.append_nil (here.map _) ▸ (Noted.done _).report here
  | next hhere hthere hfocus h ih => exact (ih.report _).on.report _

/-! ### Scripts -/

/-- What is wrong with the pieces of a script is noticed by the lexer, piece after piece. -/
theorem lexed_ordered (source : String) :
    (∀ d ∈ (tokenize source).diagnostics, d.issue.stage = .lex) ∧
      (tokenize source).diagnostics.Pairwise fun d e => d.position.Before e.position := by
  -- what is noticed about a piece stands where the piece does
  have hstray : ∀ {placed : Position × Piece} {d : Diagnostic},
      (placed.2.issue?.map (⟨·, placed.1⟩)) = some d →
        d.issue.stage = .lex ∧ d.position = placed.1 := by
    rintro ⟨p, piece⟩ d h
    obtain ⟨i, hi, rfl⟩ := Option.map_eq_some_iff.mp h
    refine ⟨?_, rfl⟩
    cases piece with
    | blank c => cases hi
    | stray c => cases hi; rfl
    | lexeme kind text =>
      rw [Piece.issue?] at hi
      split at hi
      · cases hi; rfl
      · cases hi
  have htexts : ∀ piece ∈ pieces source.toList, piece.text ≠ [] :=
    fun piece => text_ne_nil_of_mem_pieces
  rw [tokenize_eq]
  refine ⟨fun d hd => ?_, (place_pairwise htexts .start).filterMap _ ?_⟩
  · obtain ⟨placed, -, h⟩ := List.mem_filterMap.mp hd
    exact (hstray h).1
  · intro a b hab d hd e he
    rw [(hstray hd).2, (hstray he).2]
    exact hab

/-- **Diagnostics come in the order of the script, stage by stage.** All those of the lexer come
before all those of the parser. Those of the lexer stand at places that only go forward, and those
of the parser at places of tokens, the end of the script included, that never go back. -/
theorem diagnostics_ordered (source : String) :
    ∃ lexed parsed, (compile source).diagnostics = lexed ++ parsed ∧
      (∀ d ∈ lexed, d.issue.stage = .lex) ∧
      (∀ d ∈ parsed, d.issue.stage = .parse) ∧
      lexed.Pairwise (fun d e => d.position.Before e.position) ∧
      parsed.Pairwise (fun d e => d.position = e.position ∨ d.position.Before e.position) ∧
      ∀ d ∈ parsed, ∃ t ∈ (tokenize source).tokens, d.position = t.position := by
  obtain ⟨hlexStage, hlexOrder⟩ := lexed_ordered source
  have hwalk : Walk .idle (tokenize source).tokens (parse (tokenize source).tokens).diagnostics :=
    Focus.idle.read_walk (exists_end_mem source)
  obtain ⟨-, -, -, hordered⟩ := positions_exact source
  exact ⟨_, _, rfl, hlexStage, hwalk.stage, hlexOrder, hwalk.noted.pairwise hordered,
    hwalk.noted.exists_token⟩

end PointScope.Script
