import PointScope.Proofs.Runs
import PointScope.Proofs.Scope.Caching

/-!
# What the log holds

A log is the end of a history: of all that was pushed since it was cleared it holds the newest
entries, as many as it has room for (`Log.Holds`). Pushing keeps this (`Log.Holds.push`), although
only one entry gives way at a time (`Log.Holds.entries_push`) and what was dropped once is never
looked at again.

The history behind the log of a scope are the compilations of the run, in order
(`compilations`): load after load, in each the phases whose text is another than before, in the
order of the phases. Each has added what it found, and nothing else is ever logged
(`Scope.Compiled.log_performAll`).
-/

namespace PointScope

open Script (compile)

/-! ### Ends of lists -/

/-- The end of an end of a list. -/
private theorem rtake_rtake {α : Type} (xs : List α) (m n : ℕ) :
    (xs.rtake m).rtake n = xs.rtake (min n m) := by
  rw [List.rtake_eq_reverse_take_reverse, List.rtake_eq_reverse_take_reverse, List.reverse_reverse,
    List.take_take, List.rtake_eq_reverse_take_reverse]

private theorem length_rtake {α : Type} (xs : List α) (n : ℕ) :
    (xs.rtake n).length = min n xs.length := by
  rw [List.rtake, List.length_drop]
  omega

/-- More than all is all. -/
private theorem rtake_min_length {α : Type} (xs : List α) (n : ℕ) :
    xs.rtake (min n xs.length) = xs.rtake n := by
  rw [List.rtake, List.rtake]
  congr 1
  omega

/-! ### Bounded logs -/

namespace Log

variable {α : Type} {log : Log α} {history : List α}

/-- What a host does with a log. -/
inductive Action (α : Type) where
  | push (entry : α)
  | clear

/-- Whether the log is empty afterwards. -/
def Action.clears : Action α → Bool
  | push _ => false
  | clear => true

/-- The entry that is pushed, if one is. -/
def Action.entry? : Action α → Option α
  | push entry => some entry
  | clear => none

/-- Carries an action out. -/
def act (log : Log α) : Action α → Log α
  | .push entry => log.push entry
  | .clear => log.clear

/-- Carries actions out in order. -/
def actAll (log : Log α) (actions : List (Action α)) : Log α := actions.foldl act log

/-- What was pushed since the log was cleared, oldest first. -/
def pushed (actions : List (Action α)) : List α :=
  (since Action.clears actions).filterMap Action.entry?

/-- The newest entries are the end of the list. -/
theorem newest_eq_rtake (n : ℕ) (entries : List α) : newest n entries = entries.rtake n := rfl

/-- The log holds the newest entries of a history. -/
def Holds (log : Log α) (history : List α) : Prop := log.entries = history.rtake log.capacity

theorem holds_nil (capacity : ℕ) : Holds { capacity } ([] : List α) := (List.rtake_nil _).symm

/-- A log never holds more than it has room for. -/
theorem Holds.size_le (h : log.Holds history) : log.size ≤ log.capacity := by
  rw [size, h, length_rtake]
  exact min_le_left _ _

theorem capacity_push (log : Log α) (entry : α) : (log.push entry).capacity = log.capacity := by
  unfold push
  split <;> rfl

/-- One entry gives way at a time, so a log that holds no more than it has room for keeps the newest
entries. -/
theorem Holds.entries_push (h : log.Holds history) (entry : α) :
    (log.push entry).entries = newest log.capacity (log.entries ++ [entry]) := by
  have hsize : log.entries.length ≤ log.capacity := h.size_le
  rw [newest_eq_rtake]
  unfold Log.push
  cases hcapacity : log.capacity with
  | zero =>
    have hnil : log.entries = [] := List.eq_nil_of_length_eq_zero (by omega)
    rw [if_pos rfl, hnil, List.rtake_zero]
  | succ n =>
    rw [if_neg (Nat.succ_ne_zero n), List.rtake_concat_succ]
    dsimp only
    congr 1
    -- the log is full exactly if it has one entry more than the end that is kept
    split
    · rw [List.rtake, ← List.drop_one]
      congr 1
      omega
    · rw [List.rtake, Nat.sub_eq_zero_of_le (by omega), List.drop_zero]

/-- An entry that is pushed is the newest one. -/
theorem Holds.push (h : log.Holds history) (entry : α) :
    (log.push entry).Holds (history ++ [entry]) := by
  have hentries := h.entries_push entry
  unfold Holds at h ⊢
  rw [hentries, capacity_push, newest_eq_rtake, h]
  cases log.capacity with
  | zero => rw [List.rtake_zero, List.rtake_zero]
  | succ n =>
    rw [List.rtake_concat_succ, List.rtake_concat_succ, rtake_rtake, min_eq_left (Nat.le_succ n)]

theorem capacity_pushAll (log : Log α) (entries : List α) :
    (log.pushAll entries).capacity = log.capacity := by
  induction entries generalizing log with
  | nil => rfl
  | cons entry rest ih => exact (ih (log.push entry)).trans (capacity_push log entry)

theorem pushAll_append (log : Log α) (entries rest : List α) :
    log.pushAll (entries ++ rest) = (log.pushAll entries).pushAll rest :=
  List.foldl_append

/-- Entries that are pushed in order are the newest ones. -/
theorem Holds.pushAll (h : log.Holds history) (entries : List α) :
    (log.pushAll entries).Holds (history ++ entries) := by
  induction entries generalizing log history with
  | nil => rwa [List.append_nil]
  | cons entry rest ih =>
    rw [List.append_cons]
    exact ih (h.push entry)

/-- A log that starts empty holds the newest of what was pushed since it was cleared. -/
theorem holds_actAll (capacity : ℕ) (actions : List (Action α)) :
    (actAll { capacity } actions).capacity = capacity ∧
      (actAll { capacity } actions).Holds (pushed actions) := by
  refine foldl_since
    (P := fun past (log : Log α) =>
      log.capacity = capacity ∧ log.Holds (past.filterMap Action.entry?))
    ⟨rfl, holds_nil capacity⟩ ?_ ?_ actions
  · rintro past log (entry | _) hclears ⟨hcapacity, -⟩
    · cases hclears
    · exact ⟨hcapacity, (List.rtake_nil _).symm⟩
  · rintro past log (entry | _) hclears ⟨hcapacity, hholds⟩
    · rw [List.filterMap_append]
      exact ⟨(capacity_push log entry).trans hcapacity, hholds.push entry⟩
    · cases hclears

end Log

/-! ### Compilations -/

/-- The compilations of some loads that come after others, in the order in which they happen: a text
is compiled if it is another than the one that was loaded before for its phase. -/
def compilations (before : List (Phased String)) : List (Phased String) → List (Phase × String)
  | [] => []
  | sources :: rest =>
    (Phase.all.filter fun phase => lastText? before phase ≠ some (sources.get phase)).map
        (fun phase => (phase, sources.get phase)) ++
      compilations (before ++ [sources]) rest

/-- What some compilations find wrong, in order, each with the phase that it is about. -/
def findings (compiled : List (Phase × String)) : List LogEntry :=
  compiled.flatMap fun (phase, source) => (compile source).diagnostics.map (⟨phase, ·⟩)

theorem findings_append (compiled rest : List (Phase × String)) :
    findings (compiled ++ rest) = findings compiled ++ findings rest := List.flatMap_append

/-- Loads that come after others compile what these have not loaded last. -/
theorem compilations_append (before loaded rest : List (Phased String)) :
    compilations before (loaded ++ rest) =
      compilations before loaded ++ compilations (before ++ loaded) rest := by
  induction loaded generalizing before with
  | nil => rw [List.append_nil]; rfl
  | cons sources loaded ih =>
    rw [List.cons_append, compilations, compilations, ih, List.append_assoc, List.append_assoc,
      List.singleton_append]

/-- The compilations are as many as the changes of text. -/
private theorem length_compilations (before loaded : List (Phased String)) :
    (compilations before loaded).length = changes before loaded := by
  induction loaded generalizing before with
  | nil => rfl
  | cons sources loaded ih =>
    rw [compilations, changes, List.length_append, List.length_map, ih, changedPhases,
      List.countP_eq_length_filter]

namespace Scope

/-! ### What a load logs -/

/-- A text that is compiled adds what is wrong with it to the log. -/
private theorem loadPhase_log (s : Scope) (phase : Phase) (source : String) :
    (s.loadPhase phase source).2.log =
      s.log.pushAll (if (s.loadPhase phase source).1 then findings [(phase, source)] else []) := by
  rw [loadPhase]
  split
  · rfl
  · rw [if_pos rfl, findings, List.flatMap_singleton]
    rfl

/-- A load of texts that are the ones loaded before does nothing. -/
private theorem loadPhases_of_unchanged {s : Scope} {sources : Phased String} {phases : List Phase}
    (h : ∀ phase ∈ phases,
      (s.slots.get phase).fingerprint = some (Text.fingerprint (sources.get phase))) :
    s.loadPhases sources phases = (0, s) := by
  induction phases with
  | nil => rfl
  | cons phase rest ih =>
    obtain ⟨hphase, hrest⟩ := List.forall_mem_cons.mp h
    rw [loadPhases, loadPhase, if_pos hphase]
    dsimp only
    rw [ih hrest]
    rfl

/-- Loading the texts of some phases logs, in order, what is wrong with those that differ from the
last ones. -/
theorem Compiled.loadPhases_log {s : Scope} {last? : Phase → Option String} (h : s.Compiled last?)
    {sources : Phased String} {phases : List Phase} (hnodup : phases.Nodup)
    (hapart : ∀ phase ∈ phases, ∀ text ∈ last? phase,
      Text.fingerprint text = Text.fingerprint (sources.get phase) → text = sources.get phase) :
    (s.loadPhases sources phases).2.log = s.log.pushAll (findings
      ((phases.filter fun phase => last? phase ≠ some (sources.get phase)).map
        fun phase => (phase, sources.get phase))) := by
  induction phases generalizing s last? with
  | nil => rfl
  | cons phase rest ih =>
    obtain ⟨hphase, hrest⟩ := List.nodup_cons.mp hnodup
    obtain ⟨hapart, haparts⟩ := List.forall_mem_cons.mp hapart
    obtain ⟨hcompiled, hslot⟩ := h.loadPhase hapart
    -- the phases after this one still hold what they did
    have hkept : ∀ other ∈ rest,
        Function.update last? phase (some (sources.get phase)) other = last? other := by
      rintro other hother
      exact Function.update_of_ne (fun heq => hphase (by rwa [← heq])) _ _
    have hlog := ih hslot hrest fun other hother => by
      rw [hkept other hother]
      exact haparts other hother
    have hfilter : rest.filter (fun other =>
        Function.update last? phase (some (sources.get phase)) other ≠ some (sources.get other)) =
        rest.filter fun other => last? other ≠ some (sources.get other) :=
      List.filter_congr fun other hother => by rw [hkept other hother]
    rw [Scope.loadPhases]
    dsimp only
    rw [hlog, hfilter, loadPhase_log, hcompiled, ← Log.pushAll_append, List.filter_cons]
    by_cases hsame : last? phase = some (sources.get phase)
    · simp [hsame]
    · simp [hsame, findings]

/-! ### Runs -/

section Run

variable {s : Scope} {before : List (Phased String)} (h : s.Compiled (lastText? before))

include h

/-- One operation: a load logs what its compilations find, any other leaves the log alone. -/
theorem Compiled.perform_log {op : Operation}
    (hapart : ToldApart ((before ++ loads [op]).flatMap Phased.toList)) :
    (s.perform op).2.log = s.log.pushAll (findings (compilations before (loads [op]))) := by
  cases hop : op.sources? with
  | none =>
    obtain ⟨environment, samples, frameIndex, hnext⟩ := perform_snd hop s
    have hloads : loads [op] = [] := List.filterMap_cons_none hop
    rw [hnext, hloads]
    rfl
  | some sources =>
    have hloads : loads [op] = [sources] := List.filterMap_cons_some hop
    rw [hloads] at hapart ⊢
    rw [perform_of_sources? hop, Scope.load, h.loadPhases_log (by decide : Phase.all.Nodup),
      compilations, compilations, List.append_nil]
    -- what is told apart: the texts of the past and the texts to load
    intro phase _ text htext
    refine hapart text ?_ _ ?_
    · exact List.flatMap_append ▸ List.mem_append_left _ (mem_of_lastText? htext)
    · refine List.mem_flatMap.mpr ⟨sources, ?_, sources.get_mem_toList phase⟩
      exact List.mem_append_right _ (List.mem_singleton_self sources)

end Run

/-- A run logs what its compilations find, in order. -/
theorem Compiled.log_performAll {s : Scope} {before : List (Phased String)}
    (h : s.Compiled (lastText? before)) {ops : List Operation}
    (hapart : ToldApart ((before ++ loads ops).flatMap Phased.toList)) :
    (s.performAll ops).log = s.log.pushAll (findings (compilations before (loads ops))) := by
  induction ops generalizing s before with
  | nil => rfl
  | cons op rest ih =>
    rw [loads_cons, ← List.append_assoc] at hapart
    have hslots := (h.perform hapart.of_append).1
    rw [Scope.performAll, List.foldl_cons, ← Scope.performAll, ih hslots hapart,
      h.perform_log hapart.of_append, ← Log.pushAll_append, ← findings_append, loads_cons op rest,
      compilations_append]

/-- **The log is the end of the history.** Whatever is pushed to a log of any capacity, and however
often it is cleared, it holds the newest of what was pushed since, as many entries as it has room
for, oldest first; asked for recent entries it gives the newest ones of these.

Through any run whose texts have different fingerprints, the log of a scope holds the newest 50 of
all that its compilations found, in the order in which they happened and each with its phase. The
compilations are those that are counted, and a load of texts that are loaded already does
nothing. -/
theorem log_holds_newest (c : Config) (shared : Memory) (ops : List Operation)
    (hapart : ToldApart (loadedTexts ops)) :
    (∀ (α : Type) (capacity : ℕ) (actions : List (Log.Action α)),
      let log := Log.actAll { capacity } actions
      let pushed := Log.pushed actions
      log.entries = pushed.rtake (min capacity pushed.length) ∧
        ∀ n, log.recent n = log.entries.rtake (min n log.size)) ∧
    let s := (Scope.new c shared).performAll ops
    let compiled := compilations [] (loads ops)
    s.log.entries = (findings compiled).rtake 50 ∧ s.compileCount = compiled.length ∧
      ∀ sources, (∀ phase, lastText? (loads ops) phase = some (sources.get phase)) →
        s.load sources = (0, s) := by
  constructor
  · intro α capacity actions log pushed
    obtain ⟨hcapacity, hholds⟩ := Log.holds_actAll capacity actions
    refine ⟨?_, fun n => ?_⟩
    · rw [rtake_min_length, hholds, hcapacity]
    · exact (rtake_min_length log.entries n).symm
  · intro s compiled
    have hnew := new_compiled c shared
    obtain ⟨hslots, hcount⟩ := hnew.performAll hapart
    have hlog : s.log = emptyDiagnosticLog.pushAll (findings compiled) := hnew.log_performAll hapart
    have hholds : (emptyDiagnosticLog.pushAll (findings compiled)).Holds (findings compiled) :=
      (Log.holds_nil 50).pushAll _
    refine ⟨?_, ?_, fun sources hunchanged => loadPhases_of_unchanged fun phase _ => ?_⟩
    · rw [hlog, hholds, Log.capacity_pushAll]
      rfl
    · rw [length_compilations, hcount]
      exact Nat.zero_add _
    · -- no phase has a new text, so nothing is compiled
      rw [hslots phase, List.nil_append, hunchanged phase]
      rfl

/-- Two of four texts are empty, one is edited, and the last load changes nothing. -/
theorem log_holds_newest_edited :
    let first : Phased String := ⟨"n = (3", "", "", "x = f(i)"⟩
    let edited : Phased String := ⟨"n = (3", "", "", "x = )"⟩
    let ops : List Operation := [.load first, .init ⟨0, 640, 480⟩ none, .load edited, .load edited]
    ToldApart (loadedTexts ops) ∧
      (((Scope.new {} .empty).performAll ops).log.entries.map
        fun entry => (entry.phase, entry.diagnostic.display)) =
        [(.init, "[1:7] Parse: missing ')'"),
          (.point, "[1:9] Parse: unknown function 'f' evaluates to 0"),
          (.point, "[1:5] Parse: expected expression"),
          (.point, "[1:5] Parse: unexpected ')'")] := by
  intro first edited ops
  have hapart : ToldApart (loadedTexts ops) := by decide +kernel
  refine ⟨hapart, ?_⟩
  rw [(log_holds_newest {} .empty ops hapart).2.1]
  decide +kernel

end Scope

end PointScope
