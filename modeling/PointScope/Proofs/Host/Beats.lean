import PointScope.Host.BeatClock
import PointScope.Proofs.Numeric.Whole
import PointScope.Proofs.Runs

/-!
# When a clock beats

A clock keeps the number of one beat, the last that it reported, and yet a question is answered by
the whole history since it was reset: there is a new beat if the one that has started by then has a
greater number than those of all times that were asked for. For the beat that is kept is the
greatest of them (`BeatClock.Knows`), since only a greater one takes its place.

So a question that is answered with no leaves no trace, and the beats that are reported between two
resets have ever greater numbers (`BeatClock.beats_at_new_maxima`).
-/

namespace PointScope

open Binary64

/-- A number above zero is not at most zero. -/
private theorem Binary64.not_le_zero_of_pos {x : Float} (h : 0 < x) : ¬x ≤ 0 := by
  intro hle
  have hlt : Float.Model.UnpackedFloat.lt (.zero .positive) x.toModel.unpack = true :=
    of_decide_eq_true h
  have hle : Float.Model.UnpackedFloat.le x.toModel.unpack (.zero .positive) = true :=
    of_decide_eq_true hle
  match hx : x.toModel.unpack with
  | .notANumber | .zero _ | .infinity .negative | .finite .negative .. =>
    rw [hx] at hlt
    cases hlt
  | .infinity .positive | .finite .positive .. =>
    rw [hx] at hle
    cases hle

/-- What is not a number is not above zero. -/
private theorem Binary64.isNaN_eq_false_of_pos {x : Float} (h : 0 < x) : x.isNaN = false := by
  have hlt : Float.Model.UnpackedFloat.lt (.zero .positive) x.toModel.unpack = true :=
    of_decide_eq_true h
  change x.toModel.unpack.isNaN = false
  match hx : x.toModel.unpack with
  | .notANumber =>
    rw [hx] at hlt
    cases hlt
  | .zero _ | .infinity _ | .finite .. => rfl

namespace BeatClock

/-! ### Questions -/

/-- What a host does with a clock. -/
inductive Event where
  /-- Ask whether there is a new beat at a time. -/
  | tick (t : Float)
  | reset

/-- Whether the clock is as if it had never been asked afterwards. -/
def Event.resets : Event → Bool
  | tick _ => false
  | reset => true

/-- Carries an event out; a question is answered. -/
def perform (c : BeatClock) : Event → Option Bool × BeatClock
  | .tick t => (some (c.tick t).1, (c.tick t).2)
  | .reset => (none, c.reset)

/-- Carries events out in order. -/
def performAll (c : BeatClock) (events : List Event) : BeatClock :=
  events.foldl (fun c event => (c.perform event).2) c

/-- What the events of a run are answered. -/
def answers (c : BeatClock) (events : List Event) : List (Option Bool) :=
  (trace perform c events).map Prod.fst

/-- A time that a clock can be asked for. -/
def IsTime (t : Float) : Prop := t.isFinite = true ∧ ¬t < 0

/-- The number of the beat that has started last at a time, at some tempo. -/
def beatNumber (bpm t : Float) : ℕ := toCount (t / (new bpm).period)

/-- A clock runs if its tempo is above zero. -/
theorem bpm_new_le_zero_iff (bpm : Float) : (new bpm).bpm ≤ 0 ↔ ¬0 < bpm := by
  have hzero : (0 : Float).isNaN = false := rfl
  by_cases hpos : 0 < bpm
  · have hbpm : (new bpm).bpm = bpm := by
      change greater bpm 0 = bpm
      rw [greater, isNaN_eq_false_of_pos hpos, hzero]
      exact if_pos hpos
    rw [hbpm]
    exact iff_of_false (not_le_zero_of_pos hpos) (not_not_intro hpos)
  · have hbpm : (new bpm).bpm = 0 := by
      change greater bpm 0 = 0
      rw [greater, hzero, if_neg Bool.false_ne_true, if_neg hpos, ite_self]
    rw [hbpm]
    exact iff_of_true (by decide) hpos

/-- A beat has started at a time if the clock runs and can be asked for it. -/
private theorem beatAt?_new_eq_some_iff {bpm t : Float} {beat : ℕ} :
    (new bpm).beatAt? t = some beat ↔ 0 < bpm ∧ IsTime t ∧ beatNumber bpm t = beat := by
  have hrunning := bpm_new_le_zero_iff bpm
  unfold beatAt? IsTime beatNumber
  by_cases hpos : 0 < bpm
  · simp [hrunning, hpos, and_comm]
  · simp [hrunning, hpos]

/-- There is a new beat if one has started whose number is greater than the one that is kept. -/
theorem tick_fst_eq_true_iff {c : BeatClock} {t : Float} : (c.tick t).1 = true ↔
    ∃ beat, c.beatAt? t = some beat ∧ c.lastBeat.all (· < beat) = true := by
  rw [tick]
  cases c.beatAt? t with
  | none => simp
  | some beat =>
    by_cases hnew : c.lastBeat.all (· < beat) = true
    · simp [hnew]
    · simp [hnew]

/-- A question that is answered with no leaves no trace. -/
theorem tick_snd_of_not {c : BeatClock} {t : Float} (h : (c.tick t).1 = false) :
    (c.tick t).2 = c := by
  rw [tick] at h ⊢
  cases hbeat : c.beatAt? t with
  | none => rfl
  | some beat =>
    rw [hbeat] at h
    dsimp only at h ⊢
    split at h
    · cases h
    · rename_i hold
      rw [if_neg hold]

/-! ### Histories -/

/-- After some questions the clock, which has kept its tempo, would report just the beats whose
number is greater than those of all times that were asked for. -/
structure Knows (bpm : Float) (past : List Event) (c : BeatClock) : Prop where
  beatAt? : ∀ t, c.beatAt? t = (new bpm).beatAt? t
  lastBeat : ∀ n, c.lastBeat.all (· < n) = true ↔
    ∀ t beat, .tick t ∈ past → (new bpm).beatAt? t = some beat → beat < n

/-- A new clock has been asked for nothing. -/
theorem knows_new (bpm : Float) : Knows bpm [] (new bpm) :=
  ⟨fun _ => rfl, fun _ => iff_of_true rfl nofun⟩

section Knows

variable {bpm : Float} {past : List Event} {c : BeatClock} (h : Knows bpm past c)

include h

/-- A clock that is reset has been asked for nothing. -/
theorem Knows.reset : Knows bpm [] c.reset := ⟨h.beatAt?, (knows_new bpm).lastBeat⟩

/-- **One question**, however it is answered, is one more that the clock knows of. -/
theorem Knows.tick (t : Float) : Knows bpm (past ++ [.tick t]) (c.tick t).2 := by
  -- the last question counts if it has a beat, the others as before
  have hconcat : ∀ n, (∀ t' beat, .tick t' ∈ past ++ [.tick t] →
      (new bpm).beatAt? t' = some beat → beat < n) ↔
        c.lastBeat.all (· < n) = true ∧ ∀ beat, c.beatAt? t = some beat → beat < n := by
    intro n
    rw [h.lastBeat, h.beatAt?]
    simp only [List.mem_append, List.mem_singleton, Event.tick.injEq]
    constructor
    · exact fun hall => ⟨fun t' beat ht' => hall t' beat (.inl ht'),
        fun beat => hall t beat (.inr rfl)⟩
    · rintro ⟨hpast, hlast⟩ t' beat (ht' | rfl)
      · exact hpast t' beat ht'
      · exact hlast beat
  cases hanswer : (c.tick t).1 with
  | false =>
    rw [tick_snd_of_not hanswer]
    refine ⟨h.beatAt?, fun n => (iff_self_and.mpr ?_).trans (hconcat n).symm⟩
    intro hlast beat hbeat
    -- the beat is not greater than the one that is kept
    have hkept : ¬c.lastBeat.all (· < beat) = true := fun hnew => by
      rw [tick_fst_eq_true_iff.mpr ⟨beat, hbeat, hnew⟩] at hanswer
      cases hanswer
    cases hkeeps : c.lastBeat with
    | none => exact absurd (by rw [hkeeps]; rfl) hkept
    | some last =>
      simp only [hkeeps, Option.all_some, decide_eq_true_eq] at hlast hkept
      omega
  | true =>
    obtain ⟨beat, hbeat, hnew⟩ := tick_fst_eq_true_iff.mp hanswer
    have hnext : (c.tick t).2 = { c with lastBeat := some beat } := by
      rw [BeatClock.tick, hbeat]
      dsimp only
      rw [if_pos hnew]
    rw [hnext]
    refine ⟨h.beatAt?, fun n => Iff.trans ?_ (hconcat n).symm⟩
    simp only [Option.all_some, decide_eq_true_eq, hbeat, Option.some.injEq, forall_eq']
    refine iff_and_self.mpr fun hlt => (h.lastBeat n).mpr fun t' beat' ht' hbeat' => ?_
    exact ((h.lastBeat beat).mp hnew t' beat' ht' hbeat').trans hlt

/-- There is a new beat if its number is greater than those of all times that were asked for. -/
theorem Knows.tick_fst_eq_true_iff (t : Float) : (c.tick t).1 = true ↔
    0 < bpm ∧ IsTime t ∧
      ∀ t', .tick t' ∈ past → IsTime t' → beatNumber bpm t' < beatNumber bpm t := by
  rw [BeatClock.tick_fst_eq_true_iff, h.beatAt?]
  simp only [h.lastBeat, beatAt?_new_eq_some_iff]
  constructor
  · rintro ⟨beat, ⟨hpos, htime, rfl⟩, hnew⟩
    exact ⟨hpos, htime, fun t' ht' htime' => hnew t' _ ht' ⟨hpos, htime', rfl⟩⟩
  · rintro ⟨hpos, htime, hnew⟩
    refine ⟨_, ⟨hpos, htime, rfl⟩, ?_⟩
    rintro t' beat ht' ⟨-, htime', rfl⟩
    exact hnew t' ht' htime'

end Knows

/-- After any run the clock knows what it was asked since it was reset. -/
theorem knows_performAll (bpm : Float) (events : List Event) :
    Knows bpm (since Event.resets events) ((new bpm).performAll events) := by
  refine foldl_since (knows_new bpm) ?_ ?_ events
  · rintro past c (t | _) hresets h
    · cases hresets
    · exact h.reset
  · rintro past c (t | _) hresets h
    · exact h.tick t
    · cases hresets

/-- What is put in behind the first part of a list comes between the parts. -/
private theorem insertIdx_length_append {α : Type} (xs ys : List α) (a : α) :
    (xs ++ ys).insertIdx xs.length a = xs ++ a :: ys := by
  induction xs with
  | nil => rfl
  | cons x xs ih => exact congrArg (x :: ·) ih

/-- The events behind the first ones are answered by the clock that these leave. -/
theorem answers_append (c : BeatClock) (events rest : List Event) :
    c.answers (events ++ rest) = c.answers events ++ (c.performAll events).answers rest := by
  rw [answers, trace_append, List.map_append]
  rfl

/-- **A clock beats at new maxima only.** Asked for a time after any events, a clock reports a beat
just if it runs, the time is one that can be asked for, and the number of its beat is greater than
those of all such times that it was asked for since it was reset. A question that is answered with
no leaves the clock as it was: put in anywhere or left out, it changes no other answer. And of two
beats that are reported with no reset between them the later one has the greater number.

The number of a beat is the whole part of the time counted in periods, as far as 64 bits go. -/
theorem beats_at_new_maxima (bpm : Float) (before : List Event) (t : Float) :
    let c := (new bpm).performAll before
    ((c.tick t).1 = true ↔ 0 < bpm ∧ IsTime t ∧
      ∀ t', .tick t' ∈ since Event.resets before → IsTime t' →
        beatNumber bpm t' < beatNumber bpm t) ∧
    ((c.tick t).1 = false → (c.tick t).2 = c ∧ ∀ after,
      (new bpm).answers (before ++ .tick t :: after) =
        ((new bpm).answers (before ++ after)).insertIdx before.length (some false)) ∧
    (∀ between t', .reset ∉ between → (c.tick t).1 = true →
      (((new bpm).performAll (before ++ .tick t :: between)).tick t').1 = true →
        beatNumber bpm t < beatNumber bpm t') ∧
    ∀ negative m e, parts (t / (new bpm).period) = .finite negative m e →
      beatNumber bpm t = min ⌊((if negative then -1 else 1) * (m * 2 ^ e) : ℚ)⌋₊ maxCount := by
  intro c
  refine ⟨(knows_performAll bpm before).tick_fst_eq_true_iff t, fun hno => ?_, ?_,
    fun negative m e => toCount_of_finite⟩
  · -- a question that leaves no trace: what follows is answered as without it
    have hsame := tick_snd_of_not hno
    refine ⟨hsame, fun after => ?_⟩
    have hlength : ((new bpm).answers before).length = before.length := by
      rw [answers, List.length_map, length_trace]
    have htick : c.answers (.tick t :: after) = some false :: c.answers after := by
      change some (c.tick t).1 :: (c.tick t).2.answers after = _
      rw [hno, hsame]
    rw [answers_append, answers_append, ← hlength]
    change _ ++ c.answers (.tick t :: after) = (_ ++ c.answers after).insertIdx _ _
    rw [htick, insertIdx_length_append]
  · -- the first beat is among what was asked for since the last reset
    intro between t' hreset hbeat hbeat'
    have htime := ((knows_performAll bpm before).tick_fst_eq_true_iff t).mp hbeat
    have hlater := ((knows_performAll bpm _).tick_fst_eq_true_iff t').mp hbeat'
    refine hlater.2.2 t ?_ htime.2.1
    have hnone : ∀ event ∈ .tick t :: between, event.resets = false := by
      rintro (t | _) hevent
      · rfl
      · exact absurd ((List.mem_cons.mp hevent).resolve_left (by nofun)) hreset
    rw [since_append hnone]
    exact List.mem_append_right _ List.mem_cons_self

end BeatClock

end PointScope
