import Mathlib.Algebra.Group.Nat.Defs
import PointScope.Proofs.Yaml.Plain

/-!
# Reading quoted scalars back

In single quotes line breaks are folded, so the writer doubles a line feed that starts a gap; the
text that a gap stands for then grows with every character that is written for it (`Gap.text_add`).
`readSingleQuoted_body` follows the text through gaps and words, and `readSingleQuoted_written` is
the case of a whole text.

In double quotes every line break is written as an escape sequence, so gaps hold spaces only. One
character of the text is one step of the reader, whether it stands for itself or is escaped
(`readDoubleQuoted_char`); `readDoubleQuoted_written` takes these steps one after another.
-/

namespace PointScope.Yaml

/-! ### Gaps -/

/-- A gap that folding no longer touches: further breaks only add to what it stands for. -/
def Gap.IsSettled (g : Gap) : Prop := ∀ more, g = .breaks (some '\n') more → more ≠ []

/-- The breaks behind a settled gap with breaks are part of the text. -/
theorem Gap.text_add {g : Gap} (hg : g.IsSettled) (hbreaks : g.hasBreaks) {c : Char}
    (hc : isBreak c) : (g.add c).text = g.text ++ [c] ∧ (g.add c).IsSettled := by
  match g with
  | .breaks none more => simp [Gap.add, hc, Gap.text, Gap.IsSettled]
  | .breaks (some first) more =>
    have hmore (hfirst : first = '\n') : more ≠ [] := hg more (hfirst ▸ rfl)
    by_cases hfirst : first = '\n'
    · simp [Gap.add, hc, Gap.text, Gap.IsSettled, hfirst, hmore hfirst]
    · simp [Gap.add, hc, Gap.text, Gap.IsSettled, hfirst]

/-- A space adds nothing to a gap with breaks. -/
private theorem Gap.add_space {g : Gap} (hbreaks : g.hasBreaks) : g.add ' ' = g := by
  match g with
  | .breaks first more => rfl

/-! ### Single quotes -/

section SingleQuoted

variable {c : Char} {g : Gap} {m : Mark}

/-- Blanks and breaks in single quotes are collected in the gap. -/
private theorem readSingleQuoted_gap (hc : isBlank c || isBreak c) (read cs : List Char) :
    readSingleQuoted read g m (c :: cs) = readSingleQuoted read (g.add c) (m.after c) cs := by
  rw [readSingleQuoted, if_pos hc]

/-- A character of a word, which is written twice if it is the quote. -/
private theorem readSingleQuoted_word (hc : (isBlank c || isBreak c) = false) (hm : m.column ≠ 0)
    (read cs : List Char) :
    ∃ m' : Mark, m'.column ≠ 0 ∧
      readSingleQuoted read g m ((if c = '\'' then [c, c] else [c]) ++ cs) =
        readSingleQuoted (c :: (g.text.reverse ++ read)) .empty m' cs := by
  have hafter (m : Mark) : m.after c = m.right 1 :=
    m.after_of_not_isBreak (Bool.or_eq_false_iff.mp hc).2
  by_cases hquote : c = '\''
  · subst hquote
    refine ⟨m.right 2, by simp, ?_⟩
    rw [if_pos rfl, List.cons_append, readSingleQuoted]
    simp [hc, hm, hafter, Mark.right_right]
  · refine ⟨m.right 1, by simp, ?_⟩
    rw [if_neg hquote, List.cons_append, readSingleQuoted]
    simp [hc, hm, hquote, hafter]

/-- A single quote ends the scalar. -/
private theorem readSingleQuoted_close (hm : m.column ≠ 0) {tail : List Char}
    (htail : tail.head? ≠ some '\'') (read : List Char) :
    readSingleQuoted read g m ('\'' :: tail) =
      .ok ((g.text.reverse ++ read).reverse, ⟨tail, m.right 1⟩) := by
  have hc : (isBlank '\'' || isBreak '\'') = false := by decide
  have hafter : m.after '\'' = m.right 1 := rfl
  rw [readSingleQuoted]
  simp only [hc, hm, decide_false, Bool.false_and, Bool.false_eq_true, if_false, if_true, hafter]
  split
  · next rest => exact absurd rfl htail
  · rfl

/-- The text after line breaks is indented, so nothing but blanks and breaks stands in the first
column. -/
private theorem readSingleQuoted_indentation (hm : g.hasBreaks = false → m.column ≠ 0)
    (read cs : List Char) :
    ∃ m' : Mark, m'.column ≠ 0 ∧
      readSingleQuoted read g m ((if g.hasBreaks then indentation else []) ++ cs) =
        readSingleQuoted read g m' cs := by
  by_cases hg : g.hasBreaks = true
  · have hspace : (isBlank ' ' || isBreak ' ') = true := by decide
    have hafter : (m.after ' ').after ' ' = m.right 2 := rfl
    refine ⟨m.right 2, by simp, ?_⟩
    simp only [hg, if_true, indentation, List.cons_append, List.nil_append,
      readSingleQuoted_gap hspace, Gap.add_space hg, hafter]
  · exact ⟨m, hm (by simpa using hg), by simp [hg]⟩

/-- A line break of the text, written twice where folding would take it, is one more character that
the gap stands for. -/
private theorem readSingleQuoted_break (hc : isBreak c) (hg : g.IsSettled)
    (hempty : g.hasBreaks = false → g = .empty) (read cs : List Char) :
    ∃ g' : Gap, ∃ m' : Mark, g'.hasBreaks ∧ g'.IsSettled ∧ g'.text = g.text ++ [c] ∧
      readSingleQuoted read g m ((if c = '\n' && !g.hasBreaks then [c, c] else [c]) ++ cs) =
        readSingleQuoted read g' m' cs := by
  have hgap : (isBlank c || isBreak c) = true := by simp [hc]
  by_cases hbreaks : g.hasBreaks = true
  · obtain ⟨htext, hsettled⟩ := Gap.text_add hg hbreaks hc
    refine ⟨g.add c, m.after c, ?_, hsettled, htext, ?_⟩
    · match g with
      | .breaks first more => simp [Gap.add, hc, Gap.hasBreaks]
    · simp [hbreaks, readSingleQuoted_gap hgap]
  · obtain rfl : g = .empty := hempty (by simpa using hbreaks)
    -- a line feed is written twice, as a single one would be folded into a space
    by_cases hfeed : c = '\n'
    · refine ⟨.breaks (some c) [c], (m.after c).after c, rfl, ?_, ?_, ?_⟩
      · simp [Gap.IsSettled]
      · simp [Gap.text, Gap.empty, hfeed]
      · simp [hfeed, Gap.hasBreaks, Gap.empty, readSingleQuoted_gap, isBreak, Gap.add]
    · refine ⟨.breaks (some c) [], m.after c, rfl, ?_, ?_, ?_⟩
      · simp [Gap.IsSettled, hfeed]
      · simp [Gap.text, Gap.empty, hfeed]
      · simp [hfeed, Gap.empty, readSingleQuoted_gap hgap, hc, Gap.add]

/-- Text in single quotes behind a gap: its blanks are spaces, and no space is beside a line break,
neither in the text nor where it meets the gap. -/
structure QuotedRest (g : Gap) (cs : List Char) : Prop where
  blanks : ∀ c ∈ cs, isBlank c → c = ' '
  spaceBreak : hasPair isSpace isBreak cs = false
  breakSpace : hasPair isBreak isSpace cs = false
  settled : g.IsSettled
  behindSpace : g.hasBreaks = false → g ≠ .empty → ∀ c ∈ cs.head?, isBreak c = false
  behindBreak : g.hasBreaks → cs.head? ≠ some ' '

/-- A text that may stand in single quotes can be read on from its start. -/
theorem QuotedRest.of_allowsSingleQuoted {cs : List Char} (h : allowsSingleQuoted cs) :
    QuotedRest .empty cs := by
  have hprintable := Printable.of_allowsSingleQuoted h
  simp only [allowsSingleQuoted, Bool.and_eq_true, Bool.not_eq_true'] at h
  exact
    { blanks c hc := eq_space_of_isBlank (hprintable.of_mem hc)
      spaceBreak := h.1.2
      breakSpace := h.2
      settled := by simp [Gap.IsSettled, Gap.empty]
      behindSpace := fun _ hne => absurd rfl hne
      behindBreak := by simp [Gap.hasBreaks, Gap.empty] }

/-- The text goes on behind its first character with a gap that ends in that character, or with
none. -/
theorem QuotedRest.of_cons {cs : List Char} (h : QuotedRest g (c :: cs)) {g' : Gap}
    (hg : g'.IsSettled) (hspace : g'.hasBreaks = false → g' ≠ .empty → c = ' ')
    (hbreak : g'.hasBreaks → isBreak c) : QuotedRest g' cs where
  blanks d hd := h.blanks d (List.mem_cons_of_mem c hd)
  spaceBreak := (hasPair_cons_eq_false.mp h.spaceBreak).2
  breakSpace := (hasPair_cons_eq_false.mp h.breakSpace).2
  settled := hg
  behindSpace hnot hne d hd :=
    (hasPair_cons_eq_false.mp h.spaceBreak).1 d hd (by simp [isSpace, hspace hnot hne])
  behindBreak hbreaks hd := by
    have := (hasPair_cons_eq_false.mp h.breakSpace).1 ' ' hd (hbreak hbreaks)
    simp [isSpace] at this

/-- **What is written in single quotes is read back**, behind a gap that stands for text already
read. -/
theorem readSingleQuoted_body {cs : List Char} (h : QuotedRest g cs)
    (hm : g.hasBreaks = false → m.column ≠ 0) {tail : List Char} (htail : tail.head? ≠ some '\'')
    (read : List Char) :
    ∃ m', readSingleQuoted read g m (singleQuotedBody g.hasBreaks cs ++ '\'' :: tail) =
      .ok (read.reverse ++ g.text ++ cs, ⟨tail, m'⟩) := by
  induction cs generalizing g m read with
  | nil =>
    obtain ⟨m', hm', hindent⟩ := readSingleQuoted_indentation hm read ('\'' :: tail)
    refine ⟨m'.right 1, ?_⟩
    rw [singleQuotedBody, hindent, readSingleQuoted_close hm' htail]
    simp
  | cons c cs ih =>
    rw [singleQuotedBody]
    by_cases hbreak : isBreak c = true
    · -- a line break: it joins the gap, which is empty or holds breaks only
      have hempty (hnot : g.hasBreaks = false) : g = .empty := by
        by_cases hg : g = .empty
        · exact hg
        · exact absurd hbreak (by simp [h.behindSpace hnot hg c rfl])
      obtain ⟨g', m₁, hbreaks, hsettled, htext, hstep⟩ :=
        readSingleQuoted_break (m := m) hbreak h.settled hempty read
          (singleQuotedBody true cs ++ '\'' :: tail)
      have hrest : QuotedRest g' cs := h.of_cons hsettled (by simp [hbreaks]) fun _ => hbreak
      obtain ⟨m₂, hread⟩ := ih (m := m₁) hrest (by simp [hbreaks]) read
      refine ⟨m₂, ?_⟩
      rw [if_pos hbreak, List.append_assoc, hstep, ← hbreaks, hread, htext]
      simp
    · rw [if_neg hbreak]
      by_cases hspace : c = ' '
      · -- No line break is in front of a space, so this one joins a gap of blanks.
        obtain ⟨run, rfl⟩ : ∃ run, g = .blanks run := by
          match g with
          | .blanks run => exact ⟨run, rfl⟩
          | .breaks _ _ => exact absurd (congrArg some hspace) (h.behindBreak rfl)
        have hadd : (Gap.blanks run).add c = .blanks (run ++ [c]) := by simp [Gap.add, hbreak]
        have hrest : QuotedRest (.blanks (run ++ [c])) cs :=
          h.of_cons (by simp [Gap.IsSettled]) (fun _ _ => hspace) (by simp [Gap.hasBreaks])
        have hcolumn : (m.after c).column ≠ 0 := by
          simp [m.after_of_not_isBreak (by simpa using hbreak)]
        obtain ⟨m₁, hread⟩ := ih hrest (fun _ => hcolumn) read
        refine ⟨m₁, ?_⟩
        rw [Gap.hasBreaks] at hread
        rw [if_pos hspace, List.cons_append, readSingleQuoted_gap (by simp [isBlank, hspace]), hadd,
          Gap.hasBreaks, hread]
        simp [Gap.text]
      · -- a character of a word ends the gap
        have hword : (isBlank c || isBreak c) = false := by
          by_cases hblank : isBlank c = true
          · exact absurd (h.blanks c (List.mem_cons_self ..) hblank) hspace
          · simp [hblank, hbreak]
        obtain ⟨m₁, hm₁, hindent⟩ := readSingleQuoted_indentation hm read
          ((if c = '\'' then [c, c] else [c]) ++ (singleQuotedBody false cs ++ '\'' :: tail))
        obtain ⟨m₂, hm₂, hstep⟩ := readSingleQuoted_word (g := g) hword hm₁ read
          (singleQuotedBody false cs ++ '\'' :: tail)
        have hrest : QuotedRest .empty cs :=
          h.of_cons (by simp [Gap.IsSettled, Gap.empty]) (fun _ hne => absurd rfl hne)
            (by simp [Gap.hasBreaks, Gap.empty])
        obtain ⟨m₃, hread⟩ := ih hrest (fun _ => hm₂) (c :: (g.text.reverse ++ read))
        refine ⟨m₃, ?_⟩
        have hfalse : Gap.empty.hasBreaks = false := rfl
        rw [if_neg hspace, List.append_assoc, List.append_assoc, hindent, hstep, ← hfalse, hread]
        simp [Gap.text, Gap.empty]

/-- A text in single quotes is read back. -/
theorem readSingleQuoted_written {cs : List Char} (h : allowsSingleQuoted cs)
    (hm : m.column ≠ 0) {tail : List Char} (htail : tail.head? ≠ some '\'') :
    ∃ m', readSingleQuoted [] .empty m (singleQuotedBody false cs ++ '\'' :: tail) =
      .ok (cs, ⟨tail, m'⟩) :=
  readSingleQuoted_body (QuotedRest.of_allowsSingleQuoted h) (fun _ => hm) htail []

end SingleQuoted

/-! ### Escape sequences -/

private theorem hexDigit?_hexDigit {d : Nat} (h : d < 16) : hexDigit? (hexDigit d) = some d := by
  revert d
  decide

private theorem isBreak_hexDigit {d : Nat} (h : d < 16) : isBreak (hexDigit d) = false := by
  revert d
  decide

/-- The number of a character is read as the character. -/
private theorem charOfNat?_toNat (c : Char) : charOfNat? c.toNat = some c := by
  have hvalid : c.toNat.isValidChar := c.valid
  simp [charOfNat?, hvalid, Char.ofNat_toNat]

/-- Every letter that the writer escapes a character with is read as that character. -/
private theorem simpleEscapes_of_lookup {c letter : Char}
    (h : writtenEscapes.lookup c = some letter) :
    isBreak letter = false ∧ escapeWidth? letter = none ∧ simpleEscapes.lookup letter = some c := by
  have hall : ∀ entry ∈ writtenEscapes, isBreak entry.2 = false ∧ escapeWidth? entry.2 = none ∧
      simpleEscapes.lookup entry.2 = some entry.1 := by decide
  exact hall (c, letter) (mem_writtenEscapes h)

section DoubleQuoted

variable {m : Mark} {read tail : List Char}

/-- All but the last `missing` digits of a number. -/
private theorem readDoubleQuoted_hexDigits (count : Nat) {missing : Nat} (hmissing : 0 < missing)
    {n : Nat} (hn : n < 16 ^ count) (value : Nat) :
    readDoubleQuoted read .empty (.digits (count + missing) value) m (hexDigits count n ++ tail) =
      readDoubleQuoted read .empty (.digits missing (16 ^ count * value + n)) (m.right count)
        tail := by
  induction count generalizing n missing tail with
  | zero =>
    obtain rfl : n = 0 := by simpa using hn
    simp [hexDigits]
  | succ count ih =>
    have hdiv : n / 16 < 16 ^ count := by
      rw [Nat.pow_succ] at hn
      omega
    have hmod : n % 16 < 16 := Nat.mod_lt n (by decide)
    -- the last digit is read behind all others
    have hvalue : 16 * (16 ^ count * value + n / 16) + n % 16 = 16 ^ (count + 1) * value + n := by
      have hpow : 16 ^ (count + 1) = 16 * 16 ^ count := Nat.pow_succ'
      rw [hpow, Nat.mul_add, Nat.mul_assoc]
      omega
    have hcount : count + 1 + missing = count + (missing + 1) := by omega
    rw [hexDigits, List.append_assoc, hcount, ih (Nat.succ_pos missing) hdiv, List.singleton_append,
      readDoubleQuoted]
    simp [hexDigit?_hexDigit hmod, hmissing, hvalue, Mark.right_right,
      (m.right count).after_of_not_isBreak (isBreak_hexDigit hmod)]

/-- The number of a character, in enough digits. -/
private theorem readDoubleQuoted_number (c : Char) {count : Nat} (hcount : 0 < count)
    (hc : c.toNat < 16 ^ count) :
    readDoubleQuoted read .empty (.digits count 0) m (hexDigits count c.toNat ++ tail) =
      readDoubleQuoted (c :: read) .empty .none (m.right count) tail := by
  obtain ⟨count, rfl⟩ : ∃ k, count = k + 1 := ⟨count - 1, by omega⟩
  have hdiv : c.toNat / 16 < 16 ^ count := by
    rw [Nat.pow_succ] at hc
    omega
  have hmod : c.toNat % 16 < 16 := Nat.mod_lt _ (by decide)
  have hvalue : 16 * (c.toNat / 16) + c.toNat % 16 = c.toNat := Nat.div_add_mod _ 16
  rw [hexDigits, List.append_assoc, readDoubleQuoted_hexDigits count Nat.one_pos hdiv,
    List.singleton_append, readDoubleQuoted]
  simp [hexDigit?_hexDigit hmod, hvalue, charOfNat?_toNat, Mark.right_right,
    (m.right count).after_of_not_isBreak (isBreak_hexDigit hmod)]

/-- A letter that announces the number of a character, and the number. -/
private theorem readDoubleQuoted_numbered (c : Char) {letter : Char} {count : Nat}
    (hletter : isBreak letter = false) (hwidth : escapeWidth? letter = some count)
    (hcount : 0 < count) (hc : c.toNat < 16 ^ count) :
    readDoubleQuoted read .empty .backslash m (letter :: (hexDigits count c.toNat ++ tail)) =
      readDoubleQuoted (c :: read) .empty .none (m.right (1 + count)) tail := by
  rw [readDoubleQuoted]
  simp [hletter, hwidth, m.after_of_not_isBreak hletter, readDoubleQuoted_number c hcount hc,
    Mark.right_right]

variable (read tail)

/-- An escape sequence is read as the character that it was written for. -/
theorem readDoubleQuoted_escaped (c : Char) (g : Gap) (hm : m.column ≠ 0) :
    ∃ n, readDoubleQuoted read g .none m (escaped c ++ tail) =
      readDoubleQuoted (c :: (g.text.reverse ++ read)) .empty .none (m.right n) tail := by
  have hback (cs : List Char) : readDoubleQuoted read g .none m ('\\' :: cs) =
      readDoubleQuoted (g.text.reverse ++ read) .empty .backslash (m.right 1) cs := by
    have hafter : m.after '\\' = m.right 1 := rfl
    have hword : (isBlank '\\' || isBreak '\\') = false := rfl
    rw [readDoubleQuoted]
    simp [hword, hm, hafter]
  unfold escaped
  split
  · next letter h =>
    obtain ⟨hbreak, hwidth, hmeant⟩ := simpleEscapes_of_lookup h
    refine ⟨2, ?_⟩
    rw [List.cons_append, hback, List.singleton_append, readDoubleQuoted]
    simp [hbreak, hwidth, hmeant, (m.right 1).after_of_not_isBreak hbreak, Mark.right_right]
  · -- no letter stands for it: as many digits as its number needs
    have hnumbered {letter : Char} {count : Nat} (hletter : isBreak letter = false)
        (hwidth : escapeWidth? letter = some count) (hcount : 0 < count)
        (hc : c.toNat < 16 ^ count) :
        ∃ n, readDoubleQuoted read g .none m
            ('\\' :: letter :: hexDigits count c.toNat ++ tail) =
          readDoubleQuoted (c :: (g.text.reverse ++ read)) .empty .none (m.right n) tail := by
      refine ⟨1 + (1 + count), ?_⟩
      rw [List.cons_append, hback, List.cons_append,
        readDoubleQuoted_numbered c hletter hwidth hcount hc, Mark.right_right]
    have hvalid : c.toNat < 0xD800 ∨ 0xDFFF < c.toNat ∧ c.toNat < 0x110000 := c.valid
    dsimp only
    split_ifs
    · exact hnumbered rfl rfl (by decide) (by omega)
    · exact hnumbered rfl rfl (by decide) (by omega)
    · exact hnumbered rfl rfl (by decide) (by omega)

/-! ### Double quotes -/

/-- **What double quotes hold for one character is read as that character.** A space joins the gap
in front of it; any other character ends the gap. -/
theorem readDoubleQuoted_char (c : Char) (run : List Char) (hm : m.column ≠ 0) :
    ∃ read' run' n, read'.reverse ++ run' = read.reverse ++ run ++ [c] ∧
      readDoubleQuoted read (.blanks run) .none m (doubleQuotedChar c ++ tail) =
        readDoubleQuoted read' (.blanks run') .none (m.right n) tail := by
  unfold doubleQuotedChar
  split
  · obtain ⟨n, hstep⟩ := readDoubleQuoted_escaped read tail c (.blanks run) hm
    refine ⟨c :: (run.reverse ++ read), [], n, by simp, ?_⟩
    exact hstep
  · next h =>
    simp only [Bool.or_eq_true, Bool.not_eq_true', decide_eq_true_eq, not_or,
      Bool.not_eq_true, Bool.not_eq_false] at h
    obtain ⟨⟨⟨hprintable, hbreak⟩, hquote⟩, hback⟩ := h
    have hafter : m.after c = m.right 1 := m.after_of_not_isBreak hbreak
    rw [List.singleton_append, readDoubleQuoted]
    -- a blank waits in the gap until a word follows
    by_cases hblank : isBlank c = true
    · refine ⟨read, run ++ [c], 1, by simp, ?_⟩
      simp [hblank, hafter, Gap.add, hbreak]
    · refine ⟨c :: (run.reverse ++ read), [], 1, by simp, ?_⟩
      simp [hblank, hbreak, hm, hquote, hback, hafter, Gap.text, Gap.empty]

/-- **What is written in double quotes is read back**, behind a gap of spaces. -/
theorem readDoubleQuoted_body (cs run : List Char) (hm : m.column ≠ 0) :
    ∃ m', readDoubleQuoted read (.blanks run) .none m (cs.flatMap doubleQuotedChar ++ '"' :: tail) =
      .ok (read.reverse ++ run ++ cs, ⟨tail, m'⟩) := by
  induction cs generalizing read run m with
  | nil =>
    have hword : (isBlank '"' || isBreak '"') = false := rfl
    refine ⟨m.after '"', ?_⟩
    rw [List.flatMap_nil, List.nil_append, readDoubleQuoted]
    simp [hword, hm, Gap.text]
  | cons c cs ih =>
    obtain ⟨read', run', n, htext, hstep⟩ := readDoubleQuoted_char read
      (cs.flatMap doubleQuotedChar ++ '"' :: tail) c run hm
    obtain ⟨m', hread⟩ := ih (m := m.right n) read' run' (by simp [hm])
    refine ⟨m', ?_⟩
    rw [List.flatMap_cons, List.append_assoc, hstep, hread, htext]
    simp

/-- A text in double quotes is read back. -/
theorem readDoubleQuoted_written (cs : List Char) (hm : m.column ≠ 0) :
    ∃ m', readDoubleQuoted [] .empty .none m (cs.flatMap doubleQuotedChar ++ '"' :: tail) =
      .ok (cs, ⟨tail, m'⟩) :=
  readDoubleQuoted_body [] tail cs [] hm

end DoubleQuoted

end PointScope.Yaml
