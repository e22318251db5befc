import Mathlib.Data.List.Forall2
import PointScope.Proofs.Runs
import PointScope.Proofs.Scope.Agreement

/-!
# Compiling only what changed

A scope compiles a script only if the fingerprint of its text differs from that of the text it has
in the same slot. As long as no two of the texts it is ever given share a fingerprint, this cannot
be noticed: every slot holds what the last text loaded for it compiles to (`Scope.Compiled`), so a
scope that compiles all four scripts on every load draws the same pictures (`caching_transparent`).

A load counts the phases whose text is another than before; the first text of a phase is another
one even if it is empty.
-/

namespace PointScope

open Script (compile)

/-- No two of some texts share a fingerprint. -/
def ToldApart (texts : List String) : Prop :=
  ∀ a ∈ texts, ∀ b ∈ texts, Text.fingerprint a = Text.fingerprint b → a = b

instance (texts : List String) : Decidable (ToldApart texts) :=
  inferInstanceAs (Decidable (∀ a ∈ texts, ∀ b ∈ texts,
    Text.fingerprint a = Text.fingerprint b → a = b))

/-- Fewer texts are told apart all the more. -/
theorem ToldApart.mono {texts texts' : List String} (h : ToldApart texts)
    (hsub : ∀ a ∈ texts', a ∈ texts) : ToldApart texts' :=
  fun a ha b hb => h a (hsub a ha) b (hsub b hb)

/-! ### What a run has loaded -/

/-- The texts of all phases. -/
def Phased.toList (v : Phased String) : List String := Phase.all.map v.get

private theorem Phase.mem_all (phase : Phase) : phase ∈ Phase.all := by
  cases phase <;> decide

theorem Phased.get_mem_toList (v : Phased String) (phase : Phase) : v.get phase ∈ v.toList :=
  List.mem_map_of_mem phase.mem_all

/-- What the loads of a run load, in order. -/
def loads (ops : List Operation) : List (Phased String) := ops.filterMap Operation.sources?

/-- All texts that a run loads. -/
def loadedTexts (ops : List Operation) : List String := (loads ops).flatMap Phased.toList

/-- The text that was last loaded for a phase. -/
def lastText? (before : List (Phased String)) (phase : Phase) : Option String :=
  before.getLast?.map (·.get phase)

/-- In how many phases some texts differ from those loaded before. -/
def changedPhases (last? : Phase → Option String) (sources : Phased String) : Nat :=
  Phase.all.countP fun phase => last? phase ≠ some (sources.get phase)

/-- In how many phases of how many loads the text differs from the one loaded before. -/
def changes (before : List (Phased String)) : List (Phased String) → Nat
  | [] => 0
  | sources :: rest =>
    changedPhases (lastText? before) sources + changes (before ++ [sources]) rest

/-- What is loaded later does not matter to what was loaded before. -/
theorem ToldApart.of_append {before rest : List (Phased String)}
    (h : ToldApart ((before ++ rest).flatMap Phased.toList)) :
    ToldApart (before.flatMap Phased.toList) :=
  h.mono fun _ htext => List.flatMap_append ▸ List.mem_append_left _ htext

private theorem lastText?_append_singleton (before : List (Phased String))
    (sources : Phased String) :
    lastText? (before ++ [sources]) = fun phase => some (sources.get phase) := by
  funext phase
  rw [lastText?, List.getLast?_concat]
  rfl

/-- What was loaded last is among what was loaded. -/
theorem mem_of_lastText? {before : List (Phased String)} {phase : Phase} {text : String}
    (h : text ∈ lastText? before phase) : text ∈ before.flatMap Phased.toList := by
  obtain ⟨sources, hlast, rfl⟩ := Option.map_eq_some_iff.mp h
  exact List.mem_flatMap.mpr ⟨sources, List.mem_of_getLast? hlast, sources.get_mem_toList phase⟩

theorem loads_cons (op : Operation) (ops : List Operation) :
    loads (op :: ops) = loads [op] ++ loads ops :=
  @List.filterMap_append _ _ [op] ops Operation.sources?

/-- Loads that come after others change what these have not loaded last. -/
private theorem changes_append (before loaded rest : List (Phased String)) :
    changes before (loaded ++ rest) =
      changes before loaded + changes (before ++ loaded) rest := by
  induction loaded generalizing before with
  | nil => rw [List.append_nil, changes, Nat.zero_add, List.nil_append]
  | cons sources loaded ih =>
    rw [List.cons_append, changes, changes, ih, Nat.add_assoc, List.append_assoc,
      List.singleton_append]

/-! ### Slots -/

/-- A slot with what a text compiles to, or the slot that no text was loaded into. -/
def Slot.ofText? : Option String → Slot
  | none => {}
  | some text => ⟨some (Text.fingerprint text), (compile text).program⟩

namespace Scope

/-- Every slot holds what the last text of its phase compiles to. -/
def Compiled (s : Scope) (last? : Phase → Option String) : Prop :=
  ∀ phase, s.slots.get phase = Slot.ofText? (last? phase)

section Load

variable {s : Scope} {last? : Phase → Option String} (h : s.Compiled last?)

include h

/-- The program of a phase is what the text that was loaded last for it compiles to. -/
theorem Compiled.program (phase : Phase) :
    s.program phase = ((last? phase).map fun text => (compile text).program).getD .empty := by
  rw [Scope.program, h phase]
  cases last? phase <;> rfl

/-- Loading a text that has its fingerprint to itself compiles it unless it is the one that was
loaded last. -/
theorem Compiled.loadPhase {phase : Phase} {source : String}
    (hapart : ∀ text ∈ last? phase, Text.fingerprint text = Text.fingerprint source →
      text = source) :
    (s.loadPhase phase source).1 = decide (last? phase ≠ some source) ∧
      (s.loadPhase phase source).2.Compiled (Function.update last? phase (some source)) := by
  rw [Scope.loadPhase, h phase]
  by_cases hsame : last? phase = some source
  · rw [if_pos (by rw [hsame]; rfl), ← hsame, Function.update_eq_self]
    exact ⟨by simp, h⟩
  · -- the same fingerprint would mean the same text
    have hother : (Slot.ofText? (last? phase)).fingerprint ≠ some (Text.fingerprint source) := by
      cases hlast : last? phase with
      | none => exact Option.some_ne_none _ ∘ Eq.symm
      | some text =>
        intro hprint
        have htext := hapart text hlast (Option.some.inj hprint)
        exact hsame (hlast.trans (congrArg some htext))
    rw [if_neg hother]
    refine ⟨by simp [hsame], fun other => ?_⟩
    rw [compilePhase]
    dsimp only
    rw [Phased.get_set, Function.update_apply, h other]
    by_cases hphase : other = phase
    · rw [if_pos hphase, if_pos hphase.symm]
      rfl
    · rw [if_neg hphase, if_neg (Ne.symm hphase)]

/-- Loading the texts of some phases compiles those that differ from the last ones. -/
theorem Compiled.loadPhases {sources : Phased String} {phases : List Phase}
    (hnodup : phases.Nodup)
    (hapart : ∀ phase ∈ phases, ∀ text ∈ last? phase,
      Text.fingerprint text = Text.fingerprint (sources.get phase) → text = sources.get phase) :
    (s.loadPhases sources phases).1 =
        phases.countP (fun phase => last? phase ≠ some (sources.get phase)) ∧
      (s.loadPhases sources phases).2.Compiled fun phase =>
        if phase ∈ phases then some (sources.get phase) else last? phase := by
  induction phases generalizing s last? with
  | nil => exact ⟨rfl, h⟩
  | cons phase rest ih =>
    obtain ⟨hphase, hrest⟩ := List.nodup_cons.mp hnodup
    obtain ⟨hapart, haparts⟩ := List.forall_mem_cons.mp hapart
    obtain ⟨hcompiled, hslot⟩ := h.loadPhase hapart
    -- the phases after this one still hold what they did
    have hkept : ∀ other ∈ rest,
        Function.update last? phase (some (sources.get phase)) other = last? other := by
      rintro other hother
      exact Function.update_of_ne (fun heq => hphase (by rwa [← heq])) _ _
    obtain ⟨hcount, hslots⟩ := ih hslot hrest fun other hother => by
      rw [hkept other hother]
      exact haparts other hother
    constructor
    · have hcounts : rest.countP (fun other =>
          Function.update last? phase (some (sources.get phase)) other ≠ some (sources.get other)) =
          rest.countP fun other => last? other ≠ some (sources.get other) :=
        List.countP_congr fun other hother => by rw [hkept other hother]
      rw [Scope.loadPhases]
      dsimp only
      rw [hcount, hcompiled, hcounts, List.countP_cons]
      cases decide (last? phase ≠ some (sources.get phase)) <;> rfl
    · intro other
      refine (hslots other).trans (congrArg Slot.ofText? ?_)
      by_cases hother : other = phase
      · subst hother
        simp
      · simp [hother]

/-- Loading texts compiles those that are another than before. -/
theorem Compiled.load {sources : Phased String}
    (hapart : ∀ phase, ∀ text ∈ last? phase,
      Text.fingerprint text = Text.fingerprint (sources.get phase) → text = sources.get phase) :
    (s.load sources).1 = changedPhases last? sources ∧
      (s.load sources).2.Compiled fun phase => some (sources.get phase) := by
  obtain ⟨hcount, hslots⟩ := h.loadPhases (by decide : Phase.all.Nodup) fun phase _ => hapart phase
  refine ⟨hcount, fun phase => (hslots phase).trans ?_⟩
  exact congrArg Slot.ofText? (if_pos phase.mem_all)

end Load

/-- Every compilation is counted. -/
private theorem loadPhases_compileCount (s : Scope) (sources : Phased String)
    (phases : List Phase) :
    (s.loadPhases sources phases).2.compileCount =
      s.compileCount + (s.loadPhases sources phases).1 := by
  induction phases generalizing s with
  | nil => rfl
  | cons phase rest ih =>
    have hphase : (s.loadPhase phase (sources.get phase)).2.compileCount =
        s.compileCount + (s.loadPhase phase (sources.get phase)).1.toNat := by
      rw [loadPhase]
      split <;> rfl
    rw [loadPhases]
    dsimp only
    rw [ih, hphase]
    omega

/-! ### Runs -/

/-- A new scope has loaded nothing. -/
theorem new_compiled (c : Config) (shared : Memory) :
    (Scope.new c shared).Compiled (lastText? []) := by
  intro phase
  cases phase <;> rfl

section Run

variable {s : Scope} {before : List (Phased String)} (h : s.Compiled (lastText? before))

include h

/-- A load counts the phases with another text than before. -/
theorem Compiled.load_history {sources : Phased String}
    (hapart : ToldApart ((before ++ [sources]).flatMap Phased.toList)) :
    (s.load sources).1 = changedPhases (lastText? before) sources ∧
      (s.load sources).2.Compiled (lastText? (before ++ [sources])) := by
  rw [lastText?_append_singleton]
  refine h.load fun phase text htext => hapart text ?_ _ ?_
  · exact List.flatMap_append ▸ List.mem_append_left _ (mem_of_lastText? htext)
  · refine List.mem_flatMap.mpr ⟨sources, ?_, sources.get_mem_toList phase⟩
    exact List.mem_append_right _ (List.mem_singleton_self sources)

/-- One operation: a load adds to what was loaded, any other leaves the slots alone. -/
theorem Compiled.perform {op : Operation}
    (hapart : ToldApart ((before ++ loads [op]).flatMap Phased.toList)) :
    (s.perform op).2.Compiled (lastText? (before ++ loads [op])) ∧
      (s.perform op).2.compileCount = s.compileCount + changes before (loads [op]) := by
  cases hop : op.sources? with
  | none =>
    obtain ⟨environment, samples, frameIndex, hnext⟩ := perform_snd hop s
    have hloads : loads [op] = [] := List.filterMap_cons_none hop
    rw [hnext, hloads, List.append_nil]
    exact ⟨h, rfl⟩
  | some sources =>
    have hloads : loads [op] = [sources] := List.filterMap_cons_some hop
    rw [hloads] at hapart ⊢
    obtain ⟨hcount, hslots⟩ := h.load_history hapart
    rw [perform_of_sources? hop]
    refine ⟨hslots, ?_⟩
    rw [Scope.load, loadPhases_compileCount, ← Scope.load, hcount]
    rfl

end Run

/-- A run leaves in every slot what the last text of its phase compiles to, and has counted the
changes of text. -/
theorem Compiled.performAll {s : Scope} {before : List (Phased String)}
    (h : s.Compiled (lastText? before)) {ops : List Operation}
    (hapart : ToldApart ((before ++ loads ops).flatMap Phased.toList)) :
    (s.performAll ops).Compiled (lastText? (before ++ loads ops)) ∧
      (s.performAll ops).compileCount = s.compileCount + changes before (loads ops) := by
  induction ops generalizing s before with
  | nil =>
    rw [loads, List.filterMap_nil, List.append_nil]
    exact ⟨h, rfl⟩
  | cons op rest ih =>
    rw [loads_cons, ← List.append_assoc] at hapart ⊢
    obtain ⟨hslots, hcount⟩ := h.perform hapart.of_append
    obtain ⟨hslots', hcount'⟩ := ih hslots hapart
    refine ⟨hslots', ?_⟩
    rw [Scope.performAll, List.foldl_cons, ← Scope.performAll, hcount', hcount, changes_append,
      Nat.add_assoc]

/-! ### A scope that always compiles -/

/-- Compiles the scripts of all phases. -/
def compileAll (s : Scope) (sources : Phased String) : Scope :=
  Phase.all.foldl (fun s phase => s.compilePhase phase (sources.get phase)) s

/-- Carries out an operation; a load compiles every script. -/
def performAfresh (s : Scope) (op : Operation) : Answer × Scope :=
  match op.sources? with
  | some sources => (.compiled Phase.all.length, s.compileAll sources)
  | none => s.perform op

/-- Compiling everything again changes what loading does. -/
private theorem compileAll_eq (s : Scope) (sources : Phased String) :
    ∃ slots count log, s.compileAll sources =
      { s with slots := slots, compileCount := count, log := log } := ⟨_, _, _, rfl⟩

/-- Every phase has its text compiled. -/
theorem compileAll_program (s : Scope) (sources : Phased String) (phase : Phase) :
    (s.compileAll sources).program phase = (compile (sources.get phase)).program := by
  cases phase <;> rfl

/-- Scopes that agree and load scripts agree again if the programs are the same. -/
theorem Agrees.load {s s' t t' : Scope} (h : s.Agrees s')
    (ht : ∃ slots count log, t = { s with slots := slots, compileCount := count, log := log })
    (ht' : ∃ slots count log, t' = { s' with slots := slots, compileCount := count, log := log })
    (hprogram : ∀ phase, t.program phase = t'.program phase) : t.Agrees t' := by
  obtain ⟨_, _, _, rfl⟩ := ht
  obtain ⟨_, _, _, rfl⟩ := ht'
  exact ⟨h.config, h.environment, h.samples, h.frameIndex, hprogram⟩

/-- What was loaded decides the programs. -/
theorem Compiled.load_program {s : Scope} {before : List (Phased String)}
    (h : s.Compiled (lastText? before)) {sources : Phased String}
    (hapart : ToldApart ((before ++ [sources]).flatMap Phased.toList)) (phase : Phase) :
    (s.load sources).2.program phase = (compile (sources.get phase)).program := by
  rw [(h.load_history hapart).2.program, lastText?_append_singleton]
  rfl

/-- One operation on a scope that compiles what changed and on one that compiles everything. -/
theorem Compiled.perform_afresh {s s' : Scope} {before : List (Phased String)}
    (h : s.Compiled (lastText? before)) (hagrees : s.Agrees s') {op : Operation}
    (hapart : ToldApart ((before ++ loads [op]).flatMap Phased.toList)) :
    (s.perform op).1.withoutCount = (s'.performAfresh op).1.withoutCount ∧
      (s.perform op).2.Agrees (s'.performAfresh op).2 := by
  cases hop : op.sources? with
  | none =>
    rw [performAfresh, hop]
    exact (hagrees.perform hop).imp (congrArg Answer.withoutCount) id
  | some sources =>
    rw [loads, List.filterMap_cons_some hop] at hapart
    rw [performAfresh, hop, perform_of_sources? hop]
    refine ⟨rfl, hagrees.load (s.load_snd sources) (s'.compileAll_eq sources) fun phase => ?_⟩
    rw [h.load_program hapart phase, s'.compileAll_program sources phase]

/-- A run of a scope that compiles what changed and of one that compiles everything. -/
theorem Compiled.trace_afresh {s s' : Scope} {before : List (Phased String)}
    (h : s.Compiled (lastText? before)) (hagrees : s.Agrees s') {ops : List Operation}
    (hapart : ToldApart ((before ++ loads ops).flatMap Phased.toList)) :
    List.Forall₂ (fun x y => x.1.withoutCount = y.1.withoutCount ∧ x.2.Agrees y.2)
      (trace Scope.perform s ops) (trace Scope.performAfresh s' ops) := by
  induction ops generalizing s s' before with
  | nil => exact .nil
  | cons op rest ih =>
    rw [loads_cons, ← List.append_assoc] at hapart
    have hstep := h.perform_afresh hagrees hapart.of_append
    exact .cons hstep (ih (h.perform hapart.of_append).1 hstep.2 hapart)

/-- **Compiling only what changed cannot be noticed.** Through any run whose texts have different
fingerprints, every phase has the program of the last text that was loaded for it, the compilations
that are counted are the changes of text, and a load answers how many of its texts are another than
before. It does not matter in which of two ways texts are loaded, loading touches nothing but the
slots, the count and the log, and step by step a scope that compiles every text anew answers the
same and ends in the same state. -/
theorem caching_transparent (c : Config) (shared : Memory) (ops : List Operation)
    (hapart : ToldApart (loadedTexts ops)) :
    let s := (Scope.new c shared).performAll ops
    (∀ phase, s.program phase =
        ((lastText? (loads ops) phase).map fun text => (compile text).program).getD .empty) ∧
      s.compileCount = changes [] (loads ops) ∧
      (∀ sources, ToldApart (loadedTexts (ops ++ [.load sources])) →
        (s.load sources).1 = changedPhases (lastText? (loads ops)) sources) ∧
      (∀ a b c d, s.loadSources a b c d = s.load ⟨a, b, c, d⟩) ∧
      (∀ sources, ∃ slots count log, (s.load sources).2 =
        { s with slots := slots, compileCount := count, log := log }) ∧
      List.Forall₂ (fun x y => x.1.withoutCount = y.1.withoutCount ∧ x.2.Agrees y.2)
        (trace Scope.perform (Scope.new c shared) ops)
        (trace Scope.performAfresh (Scope.new c shared) ops) := by
  intro s
  obtain ⟨hslots, hcount⟩ := (new_compiled c shared).performAll hapart
  refine ⟨hslots.program, hcount.trans (Nat.zero_add _), fun sources hsources => ?_,
    s.loadSources_eq_load, s.load_snd, ?_⟩
  · rw [loadedTexts, loads, List.filterMap_append] at hsources
    exact (hslots.load_history hsources).1
  · -- step by step, as both scopes have compiled the same texts
    exact (new_compiled c shared).trace_afresh (.refl _) hapart

/-- A text that is edited and restored is compiled three times, the others once. -/
theorem caching_transparent_restored :
    let original : Phased String := ⟨"n = 3", "", "", "x = i / n"⟩
    let edited : Phased String := ⟨"n = 3", "", "", "x = 1 - i / n"⟩
    let ops : List Operation :=
      [.load original, .init ⟨0, 640, 480⟩ none, .load edited, .point 1, .load original]
    ToldApart (loadedTexts ops) ∧ ((Scope.new {} .empty).performAll ops).compileCount = 6 := by
  intro original edited ops
  have hapart : ToldApart (loadedTexts ops) := by decide +kernel
  refine ⟨hapart, (caching_transparent {} .empty ops hapart).2.1.trans ?_⟩
  decide +kernel

end Scope

end PointScope
