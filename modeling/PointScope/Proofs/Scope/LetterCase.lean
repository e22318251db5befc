import PointScope.Proofs.Scope.Caching
import PointScope.Proofs.Script.LetterCase

/-!
# Letter case in runs

Two hosts that do the same to two scopes, but write scripts and names of variables with letters of
another case, see the same pictures (`letterCase_ignored`): the scripts compile to the same
programs, and variables are kept under their names in small letters. Only how many scripts a load
had to compile may differ, since a text of which only the case has changed is another text.
-/

namespace PointScope

open Script (compile compile_eq_of_fold_eq)

/-- The same operation, up to the case of letters in scripts and names of variables. -/
inductive Operation.SameLetters : Operation → Operation → Prop
  | load {sources sources' : Phased String}
      (h : ∀ phase, Text.fold (sources.get phase) = Text.fold (sources'.get phase)) :
      SameLetters (.load sources) (.load sources')
  | loadSources {a b c d a' b' c' d' : String} (ha : Text.fold a = Text.fold a')
      (hb : Text.fold b = Text.fold b') (hc : Text.fold c = Text.fold c')
      (hd : Text.fold d = Text.fold d') :
      SameLetters (.loadSources a b c d) (.loadSources a' b' c' d')
  | setVar {name name' : String} (h : Text.fold name = Text.fold name') (value : Float) :
      SameLetters (.setVar name value) (.setVar name' value)
  | same (op : Operation) : SameLetters op op

/-- Operations that are the same up to letters either both load, or both do not. -/
theorem Operation.SameLetters.sources {op op' : Operation} (h : op.SameLetters op') :
    (∃ sources sources', op.sources? = some sources ∧ op'.sources? = some sources' ∧
        ∀ phase, Text.fold (sources.get phase) = Text.fold (sources'.get phase)) ∨
      op.sources? = none ∧ op'.sources? = none := by
  cases h with
  | load h => exact .inl ⟨_, _, rfl, rfl, h⟩
  | loadSources ha hb hc hd =>
    exact .inl ⟨_, _, rfl, rfl, fun phase => by cases phase <;> assumption⟩
  | setVar h value => exact .inr ⟨rfl, rfl⟩
  | same =>
    cases hsources : op.sources? with
    | none => exact .inr ⟨rfl, rfl⟩
    | some sources => exact .inl ⟨sources, sources, rfl, rfl, fun _ => rfl⟩

namespace Scope

section TwoRuns

variable {s s' : Scope} {before before' : List (Phased String)}
  (h : s.Compiled (lastText? before)) (h' : s'.Compiled (lastText? before'))
  (hagrees : s.Agrees s')

include h h' hagrees

/-- One operation on two scopes that agree, written with letters of any case. -/
theorem Compiled.perform_sameLetters {op op' : Operation} (hop : op.SameLetters op')
    (hapart : ToldApart ((before ++ loads [op]).flatMap Phased.toList))
    (hapart' : ToldApart ((before' ++ loads [op']).flatMap Phased.toList)) :
    (s.perform op).1.withoutCount = (s'.perform op').1.withoutCount ∧
      (s.perform op).2.Agrees (s'.perform op').2 := by
  rcases hop.sources with ⟨sources, sources', hsources, hsources', hletters⟩ | ⟨hnone, hnone'⟩
  · rw [loads, List.filterMap_cons_some hsources] at hapart
    rw [loads, List.filterMap_cons_some hsources'] at hapart'
    rw [perform_of_sources? hsources, perform_of_sources? hsources']
    refine ⟨rfl, hagrees.load (s.load_snd sources) (s'.load_snd sources') fun phase => ?_⟩
    rw [h.load_program hapart phase, h'.load_program hapart' phase,
      compile_eq_of_fold_eq (hletters phase)]
  · cases hop with
    | load | loadSources => cases hnone
    | setVar hname value => exact ⟨rfl, hagrees.setVar hname value⟩
    | same => exact (hagrees.perform hnone).imp (congrArg Answer.withoutCount) id

/-- Two runs whose operations are the same up to letters. -/
theorem Compiled.trace_sameLetters {ops ops' : List Operation}
    (hops : List.Forall₂ Operation.SameLetters ops ops')
    (hapart : ToldApart ((before ++ loads ops).flatMap Phased.toList))
    (hapart' : ToldApart ((before' ++ loads ops').flatMap Phased.toList)) :
    List.Forall₂ (fun x y => x.1.withoutCount = y.1.withoutCount ∧ x.2.Agrees y.2)
      (trace Scope.perform s ops) (trace Scope.perform s' ops') := by
  induction hops generalizing s s' before before' with
  | nil => exact .nil
  | cons hop _ ih =>
    rw [loads_cons, ← List.append_assoc] at hapart hapart'
    have hstep := h.perform_sameLetters h' hagrees hop hapart.of_append hapart'.of_append
    exact .cons hstep (ih (h.perform hapart.of_append).1 (h'.perform hapart'.of_append).1 hstep.2
      hapart hapart')

end TwoRuns

/-- **The case of letters never matters.** Scripts that differ only in it compile to the same
program with the same diagnostics. Runs from the same configuration whose operations differ only in
it, and whose texts have different fingerprints, answer every step alike, and after every step the
scopes agree and have the same variables, however the host writes their names. -/
theorem letterCase_ignored :
    (∀ source source', Text.fold source = Text.fold source' → compile source = compile source') ∧
      ∀ (c : Config) (shared : Memory) (ops ops' : List Operation),
        List.Forall₂ Operation.SameLetters ops ops' →
        ToldApart (loadedTexts ops) → ToldApart (loadedTexts ops') →
        List.Forall₂
          (fun x y => x.1.withoutCount = y.1.withoutCount ∧ x.2.Agrees y.2 ∧
            ∀ name name', Text.fold name = Text.fold name' → x.2.var? name = y.2.var? name')
          (trace Scope.perform (Scope.new c shared) ops)
          (trace Scope.perform (Scope.new c shared) ops') := by
  refine ⟨fun _ _ => compile_eq_of_fold_eq, fun c shared ops ops' hops hapart hapart' => ?_⟩
  have hnew := new_compiled c shared
  have hruns := hnew.trace_sameLetters hnew (.refl _) hops hapart hapart'
  exact hruns.imp fun x y ⟨hanswer, hagrees⟩ => ⟨hanswer, hagrees, fun _ _ => hagrees.var?⟩

/-- A script and a variable in two spellings. -/
theorem letterCase_ignored_spelled :
    let ops : List Operation :=
      [.setVar "speed" 2, .load ⟨"n = 3", "", "", "x = sin(i * speed)"⟩, .point 1]
    let ops' : List Operation :=
      [.setVar "Speed" 2, .load ⟨"N = 3", "", "", "X = Sin(I * SPEED)"⟩, .point 1]
    ToldApart (loadedTexts ops) ∧ ToldApart (loadedTexts ops') ∧
      List.Forall₂ (fun x y => x.1.withoutCount = y.1.withoutCount ∧
          x.2.var? "speed" = y.2.var? "SPEED")
        (trace Scope.perform (Scope.new {} .empty) ops)
        (trace Scope.perform (Scope.new {} .empty) ops') := by
  intro ops ops'
  have hapart : ToldApart (loadedTexts ops) := by decide +kernel
  have hapart' : ToldApart (loadedTexts ops') := by decide +kernel
  have hsources (phase : Phase) :
      Text.fold (Phased.get ⟨"n = 3", "", "", "x = sin(i * speed)"⟩ phase) =
        Text.fold (Phased.get ⟨"N = 3", "", "", "X = Sin(I * SPEED)"⟩ phase) := by
    cases phase <;> exact Text.fold_eq_fold (by decide +kernel)
  have hops : List.Forall₂ Operation.SameLetters ops ops' :=
    .cons (.setVar (Text.fold_eq_fold (by decide +kernel)) 2) <|
      .cons (.load hsources) <| .cons (.same _) .nil
  have hruns := letterCase_ignored.2 {} .empty ops ops' hops hapart hapart'
  refine ⟨hapart, hapart', hruns.imp fun x y ⟨hanswer, _, hvar⟩ => ⟨hanswer, hvar _ _ ?_⟩⟩
  exact Text.fold_eq_fold (by decide +kernel)

end Scope

end PointScope
