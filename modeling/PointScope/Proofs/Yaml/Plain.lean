import PointScope.Proofs.Yaml.Printable

/-!
# Reading plain scalars back

A text that may be a plain scalar is read back by `readPlain` as it stands: no character of it ends
the scalar, and the blanks inside it are kept. The scalar ends where the text does, at the colon
behind a key (`readPlain_key`) or at the end of the line of a value (`readPlain_value`).

The text is read word by word, so the lemma for the induction, `readPlain_append`, speaks of the
rest of a text behind a gap. `PlainRest` is what every such rest has in common.
-/

namespace PointScope.Yaml

/-! ### Places -/

/-- The place `n` characters further in the same line. -/
def Mark.right (m : Mark) (n : Nat) : Mark := ⟨m.line, m.column + n⟩

@[simp]
theorem Mark.right_zero (m : Mark) : m.right 0 = m := rfl

@[simp]
theorem Mark.right_line (m : Mark) (n : Nat) : (m.right n).line = m.line := rfl

@[simp]
theorem Mark.right_column (m : Mark) (n : Nat) : (m.right n).column = m.column + n := rfl

/-- Two steps to the right are one. -/
theorem Mark.right_right (m : Mark) (n k : Nat) : (m.right n).right k = m.right (n + k) :=
  congrArg (Mark.mk m.line) (Nat.add_assoc m.column n k)

/-- A character that is no line break is passed to the right. -/
theorem Mark.after_of_not_isBreak (m : Mark) {c : Char} (h : isBreak c = false) :
    m.after c = m.right 1 := by
  simp [Mark.after, h, Mark.right]

/-- Behind a line break the next line starts. -/
theorem Mark.after_of_isBreak (m : Mark) {c : Char} (h : isBreak c) :
    m.after c = ⟨m.line + 1, 0⟩ := by
  simp [Mark.after, h]

theorem Cursor.skip_one (c : Char) (cs : List Char) (m : Mark) :
    (Cursor.mk (c :: cs) m).skip 1 = ⟨cs, m.right 1⟩ := rfl

/-- Text at the start of a line where a value has ended: there is no more, or a key follows. -/
def StartsLine (cs : List Char) : Prop := ∀ c ∈ cs.head?, c.isAlpha

/-- A letter is no blank. -/
theorem isBlank_of_isAlpha {c : Char} (h : c.isAlpha) : isBlank c = false := by
  simp only [isBlank, Bool.or_eq_false_iff, decide_eq_false_iff_not]
  constructor <;> rintro rfl <;> simp at h

/-- A letter is no line break. -/
theorem isBreak_of_isAlpha {c : Char} (h : c.isAlpha) : isBreak c = false := by
  simp only [isBreak, Bool.or_eq_false_iff, decide_eq_false_iff_not]
  refine ⟨⟨?_, ?_⟩, ?_⟩ <;> rintro rfl <;> revert h <;> decide

/-! ### Pairs of characters -/

/-- A text has no pair of neighbours if its first two are none and its rest has none. -/
theorem hasPair_cons_eq_false {p q : Char → Bool} {c : Char} {cs : List Char} :
    hasPair p q (c :: cs) = false ↔
      (∀ d ∈ cs.head?, p c = true → q d = false) ∧ hasPair p q cs = false := by
  cases cs with
  | nil => simp [hasPair]
  | cons d cs => cases hp : p c <;> simp [hasPair, hp]

private theorem getLast?_of_cons_ne {a c : Char} {cs : List Char}
    (h : (c :: cs).getLast? ≠ some a) :
    cs.getLast? ≠ some a := by
  cases cs with
  | nil => simp
  | cons d cs => simpa using h

/-! ### The rest of a plain scalar -/

/-- Text that goes on with a plain scalar up to its last word. -/
structure PlainRest (cs : List Char) : Prop where
  /-- Its blanks are spaces, and it holds no line break. -/
  inLine : ∀ c ∈ cs, isBreak c = false ∧ (isBlank c → c = ' ')
  /-- It does not hold the start of a value. -/
  noValue : hasPair (· = ':') (fun c => isBlank c || isBreak c) cs = false
  /-- It does not hold the start of a comment. -/
  noComment : hasPair (fun c => isBlank c || isBreak c) (· = '#') cs = false
  lastNotColon : cs.getLast? ≠ some ':'
  lastNotSpace : cs.getLast? ≠ some ' '

/-- What is left of a plain scalar goes on as one. -/
theorem PlainRest.of_cons {c : Char} {cs : List Char} (h : PlainRest (c :: cs)) : PlainRest cs where
  inLine d hd := h.inLine d (List.mem_cons_of_mem c hd)
  noValue := (hasPair_cons_eq_false.mp h.noValue).2
  noComment := (hasPair_cons_eq_false.mp h.noComment).2
  lastNotColon := getLast?_of_cons_ne h.lastNotColon
  lastNotSpace := getLast?_of_cons_ne h.lastNotSpace

/-- A text that may be written plain can be read on from its start. -/
theorem PlainRest.of_allowsPlain {cs : List Char} (h : allowsPlain cs) : PlainRest cs := by
  have hprintable := Printable.of_allowsPlain h
  simp only [allowsPlain, hasIndicator, Bool.and_eq_true, Bool.not_eq_true', Bool.or_eq_false_iff,
    decide_eq_false_iff_not] at h
  obtain ⟨⟨⟨⟨⟨-, hbreak⟩, -⟩, hspace⟩, -⟩, ⟨hvalue, hcolon⟩, hcomment⟩ := h
  rw [List.any_eq_false] at hbreak
  exact
    { inLine c hc := ⟨by simpa using hbreak c hc, eq_space_of_isBlank (hprintable.of_mem hc)⟩
      noValue := hvalue
      noComment := hcomment
      lastNotColon := hcolon
      lastNotSpace := fun hlast => by simp [hlast, isSpace] at hspace }

/-- No character of the scalar ends it. -/
theorem PlainRest.endsPlain {c : Char} {cs : List Char} (h : PlainRest (c :: cs))
    (tail : List Char) : endsPlain false c (cs ++ tail) = false := by
  have hcolon (hc : c = ':') : startsBlank (cs ++ tail) = false := by
    subst hc
    cases cs with
    | nil => exact absurd rfl h.lastNotColon
    | cons d cs => exact (hasPair_cons_eq_false.mp h.noValue).1 d rfl rfl
  by_cases hc : c = ':'
  · simp [Yaml.endsPlain, hcolon hc]
  · simp [Yaml.endsPlain, hc]

/-! ### Reading -/

section Reading

variable {m : Mark} {run : List Char} (indent : Int) (read : List Char)

/-- A space joins the gap of blanks in front of it. -/
private theorem readPlain_space (cs : List Char) :
    readPlain false indent read (.blanks run) m (' ' :: cs) =
      readPlain false indent read (.blanks (run ++ [' '])) (m.right 1) cs := by
  have hbreak : isBreak ' ' = false := rfl
  rw [readPlain]
  simp [isBlank, Gap.add, Gap.hasBreaks, hbreak, m.after_of_not_isBreak hbreak]

/-- A character of a word ends the gap in front of it. A word that follows a gap does not stand at
the start of a line and does not start a comment. -/
private theorem readPlain_word {c : Char} {cs : List Char} (hc : (isBlank c || isBreak c) = false)
    (hends : endsPlain false c cs = false) (hrun : run ≠ [] → m.column ≠ 0 ∧ c ≠ '#') :
    readPlain false indent read (.blanks run) m (c :: cs) =
      readPlain false indent (c :: (run.reverse ++ read)) .empty (m.right 1) cs := by
  have hstops : stopsPlain false indent (.blanks run) m.column (c :: cs) = false := by
    by_cases hnil : run = []
    · simp [stopsPlain, Gap.isEmpty, Gap.empty, hnil]
    · obtain ⟨hcolumn, hhash⟩ := hrun hnil
      simp [stopsPlain, Gap.hasBreaks, hcolumn, hhash]
  have hafter := m.after_of_not_isBreak (Bool.or_eq_false_iff.mp hc).2
  rw [readPlain]
  simp [hc, hstops, isMisplacedColon, hends, hafter, Gap.text]

/-- **A plain scalar goes on to the end of its text.** Behind a gap of blanks there has to be a
word. -/
theorem readPlain_append {cs : List Char} (h : PlainRest cs)
    (hrun : run ≠ [] → cs ≠ [] ∧ m.column ≠ 0 ∧ cs.head? ≠ some '#') (tail : List Char) :
    readPlain false indent read (.blanks run) m (cs ++ tail) =
      readPlain false indent ((run ++ cs).reverse ++ read) .empty (m.right cs.length) tail := by
  induction cs generalizing read run m with
  | nil =>
    have hnil : run = [] := Decidable.byContradiction fun hne => (hrun hne).1 rfl
    subst hnil
    rfl
  | cons c cs ih =>
    obtain ⟨hbreak, hblank⟩ := h.inLine c (List.mem_cons_self ..)
    have hmark : (m.right 1).right cs.length = m.right (c :: cs).length := by
      rw [Mark.right_right, List.length_cons, Nat.add_comm]
    rw [List.cons_append]
    by_cases hc : isBlank c = true
    · -- A space is not the last character, and no `#` follows it.
      obtain rfl : c = ' ' := hblank hc
      have hnext : cs ≠ [] ∧ (m.right 1).column ≠ 0 ∧ cs.head? ≠ some '#' := by
        refine ⟨?_, by simp, ?_⟩
        · rintro rfl
          exact h.lastNotSpace rfl
        · intro hhead
          exact absurd ((hasPair_cons_eq_false.mp h.noComment).1 '#' hhead rfl) (by simp)
      rw [readPlain_space, ih read h.of_cons (fun _ => hnext), hmark]
      simp
    · have hword : (isBlank c || isBreak c) = false := by simp [hc, hbreak]
      have hplace (hne : run ≠ []) : m.column ≠ 0 ∧ c ≠ '#' := by
        simpa using (hrun hne).2
      rw [readPlain_word indent read hword (h.endsPlain tail) hplace, Gap.empty,
        ih _ h.of_cons (by simp), hmark]
      simp [Gap.empty]

end Reading

/-! ### Keys and values -/

section Ends

variable {cs : List Char}

/-- **A key is read up to its colon.** -/
theorem readPlain_key (h : allowsPlain cs) (indent : Int) (m : Mark) (rest : List Char) :
    readPlain false indent [] .empty m (cs ++ ':' :: ' ' :: rest) =
      .ok ⟨cs, false, ⟨':' :: ' ' :: rest, m.right cs.length⟩⟩ := by
  have hends : endsPlain false ':' (' ' :: rest) = true := rfl
  have hword : (isBlank ':' || isBreak ':') = false := rfl
  rw [Gap.empty, readPlain_append indent [] (PlainRest.of_allowsPlain h) (by simp), readPlain]
  simp [hword, hends, stopsPlain, Gap.isEmpty, Gap.empty, Gap.hasBreaks, isMisplacedColon]

/-- **A value is read up to the end of its line**, since the next line is not indented. -/
theorem readPlain_value (h : allowsPlain cs) {indent : Int} (hindent : 0 < indent) (m : Mark)
    {rest : List Char} (hrest : StartsLine rest) :
    readPlain false indent [] .empty m (cs ++ '\n' :: rest) =
      .ok ⟨cs, true, ⟨rest, ⟨m.line + 1, 0⟩⟩⟩ := by
  have hfeed : isBreak '\n' = true := rfl
  have hafter : (m.right cs.length).after '\n' = ⟨m.line + 1, 0⟩ :=
    (m.right cs.length).after_of_isBreak hfeed
  rw [Gap.empty, readPlain_append indent [] (PlainRest.of_allowsPlain h) (by simp), readPlain,
    hafter]
  simp only [hfeed, Bool.or_true, if_true, Gap.empty, Gap.add]
  -- the next line starts at the margin, so the value ends with this one
  cases rest with
  | nil => simp [readPlain, Gap.hasBreaks]
  | cons c rest =>
    have hletter : c.isAlpha := hrest c rfl
    simp [readPlain, isBlank_of_isAlpha hletter, isBreak_of_isAlpha hletter, stopsPlain,
      Gap.isEmpty, Gap.empty, Gap.hasBreaks, hindent]

end Ends

end PointScope.Yaml
