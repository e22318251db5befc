import PointScope.Proofs.Yaml.Literal
import PointScope.Proofs.Yaml.Quoted

/-!
# From entries to tokens

A record is written as one entry after another, each at the start of a line. The scanner takes three
steps for an entry: it reads the key, remembers it as a key that may come, makes it one at the
colon, and reads the value in the style that was chosen for it (`run_key`, `run_colon`,
`run_value`). Behind the entry it stands at the start of a line again, but for white space that the
next step skips (`run_entry`). Only the first entry differs, as its colon also starts the mapping.

The main result is `tokens_writtenRecord`: the tokens of a written record are the keys and values as
they were given.
-/

namespace PointScope.Yaml

/-- The text of a record: its entries in order. -/
def writtenRecord (entries : List (String × String)) : List Char :=
  entries.flatMap fun entry => writtenEntry entry.1 entry.2

theorem writtenRecord_cons (entry : String × String) (entries : List (String × String)) :
    writtenRecord (entry :: entries) = writtenEntry entry.1 entry.2 ++ writtenRecord entries :=
  List.flatMap_cons

/-- The tokens of an entry. -/
def entryTokens (entry : String × String) : List Token :=
  [.key, .scalar .plain entry.1, .value, .scalar (writtenStyle entry.2.toList) entry.2]

/-- A name that a key can be written with: it starts with a letter, a plain scalar can hold it, and
it is not too long for a key. -/
structure IsName (key : String) : Prop where
  letter : key.toList.head?.any Char.isAlpha
  plain : allowsPlain key.toList
  short : key.toList.length ≤ 1024

/-- A name is not empty. -/
theorem IsName.exists_cons {key : String} (h : IsName key) : ∃ c cs, key.toList = c :: cs := by
  have hletter := h.letter
  cases hlist : key.toList with
  | nil => simp [hlist] at hletter
  | cons c cs => exact ⟨c, cs, rfl⟩

namespace Scanner

/-! ### White space in front of a token -/

section SkipSpace

variable {c : Char} {m : Mark}

/-- Nothing is skipped in front of a word. -/
private theorem skipSpace_word (hblank : isBlank c = false) (hbreak : isBreak c = false)
    (hhash : c ≠ '#')
    (hmark : c = byteOrderMark → m.column ≠ 0) (inFlow keyAllowed : Bool) (cs : List Char) :
    skipSpace inFlow keyAllowed false m (c :: cs) = (⟨c :: cs, m⟩, keyAllowed) := by
  simp only [isBlank, Bool.or_eq_false_iff, decide_eq_false_iff_not] at hblank
  by_cases hbom : c = byteOrderMark
  · simp [skipSpace, hbreak, hhash, hblank, hmark hbom]
  · simp [skipSpace, hbreak, hhash, hblank, hbom]

private theorem skipSpace_space (inFlow keyAllowed : Bool) (cs : List Char) :
    skipSpace inFlow keyAllowed false m (' ' :: cs) =
      skipSpace inFlow keyAllowed false (m.right 1) cs := by
  have hbreak : isBreak ' ' = false := rfl
  simp [skipSpace, hbreak, m.after_of_not_isBreak hbreak]

/-- Nothing is skipped at the start of a line, where a value has ended. -/
private theorem skipSpace_startsLine {rest : List Char} (hrest : StartsLine rest)
    (inFlow keyAllowed : Bool)
    (m : Mark) : skipSpace inFlow keyAllowed false m rest = (⟨rest, m⟩, keyAllowed) := by
  cases rest with
  | nil => rfl
  | cons c rest =>
    have hletter : c.isAlpha := hrest c rfl
    have hne (d : Char) (hd : d.isAlpha = false) : c ≠ d := by
      rintro rfl
      simp [hletter] at hd
    exact skipSpace_word (isBlank_of_isAlpha hletter) (isBreak_of_isAlpha hletter)
      (hne '#' (by decide)) (fun hbom => absurd hbom (hne _ (by decide))) inFlow keyAllowed rest

end SkipSpace

/-! ### The scanner of a record -/

/-- The scanner among the entries of a record: in front of the first one, or in the block mapping
that the first one has started. -/
def amongEntries (isFirst : Bool) (c : Cursor) (tokens : List Token) (keyAllowed : Bool)
    (key : Option PendingKey) : Scanner where
  cursor := c
  tokens := tokens
  indent := if isFirst then -1 else 0
  outer := if isFirst then [] else [-1]
  keyAllowed := keyAllowed
  pending := [key]

/-- No block ends in front of a token that is not left of the mapping. -/
private theorem amongEntries_unroll (isFirst : Bool) (c : Cursor) (ts : List Token)
    (keyAllowed : Bool)
    (key : Option PendingKey) (column : Nat) :
    unroll (amongEntries isFirst c ts keyAllowed key) column =
      amongEntries isFirst c ts keyAllowed key := by
  have houtside : ¬(column : Int) < -1 := by omega
  have hinside : ¬(column : Int) < 0 := by omega
  cases isFirst <;> simp [unroll, amongEntries, unrolled, inFlow, houtside, hinside]

/-- One step: behind white space, and if the remembered key is not given up, the scanner reads a
token. -/
theorem run_among {isFirst keyAllowed keyAllowed' : Bool} {c : Cursor} {ts : List Token}
    {key : Option PendingKey} {d : Char} {ds : List Char} {m : Mark} {s : Scanner}
    (hskip : skipSpace false keyAllowed false c.mark c.rest = (⟨d :: ds, m⟩, keyAllowed'))
    (hstale : dropStale (amongEntries isFirst ⟨d :: ds, m⟩ ts keyAllowed' key) =
      .ok (amongEntries isFirst ⟨d :: ds, m⟩ ts keyAllowed' key))
    (hread : (amongEntries isFirst ⟨d :: ds, m⟩ ts keyAllowed' key).dispatch d ds = .ok s)
    (fuel : Nat) : run (fuel + 1) (amongEntries isFirst c ts keyAllowed key) = run fuel s := by
  have hspace : skipSpace (amongEntries isFirst c ts keyAllowed key).inFlow keyAllowed false c.mark
      c.rest = (⟨d :: ds, m⟩, keyAllowed') := hskip
  have hunroll := amongEntries_unroll isFirst ⟨d :: ds, m⟩ ts keyAllowed' key m.column
  unfold amongEntries at hstale hread hunroll hspace ⊢
  simp only [run, hspace, hstale, bind, Except.bind, column, hunroll, hread]

/-! ### Dispatch -/

/-- Characters that a plain scalar begins with: no indicator, or one that no blank follows. -/
structure BeginsPlain (c : Char) (cs : List Char) : Prop where
  notIndicator : isIndicator c = false
  notBlank : isBlank c = false
  notBreak : isBreak c = false
  followed : c = '-' ∨ c = '?' ∨ c = ':' → startsBlank cs = false

/-- A text that may be written plain looks like a plain scalar from its first character on. -/
theorem BeginsPlain.of_allowsPlain {c : Char} {cs : List Char} (h : allowsPlain (c :: cs))
    (tail : List Char) : BeginsPlain c (cs ++ tail) := by
  have hprintable := Printable.of_allowsPlain h
  have hin := (PlainRest.of_allowsPlain h).inLine c (List.mem_cons_self ..)
  simp only [allowsPlain, startsIndicator, Bool.and_eq_true, Bool.not_eq_true',
    Bool.or_eq_false_iff] at h
  obtain ⟨⟨⟨⟨-, hspace⟩, -⟩, ⟨⟨hindicator, hfollowed⟩, -⟩, -⟩, -⟩ := h
  refine ⟨hindicator, ?_, hin.1, ?_⟩
  · refine Bool.eq_false_iff.mpr fun hblank => ?_
    simp [hin.2 hblank, isSpace] at hspace
  · intro hc
    have hcontains : "-?:".toList.contains c = true := by
      obtain rfl | rfl | rfl := hc <;> decide
    rw [hcontains, Bool.true_and] at hfollowed
    cases cs with
    | nil => simp [startsBlank] at hfollowed
    | cons d cs => exact hfollowed

/-- Such characters start a plain scalar. -/
theorem BeginsPlain.startsPlain {c : Char} {cs : List Char} (h : BeginsPlain c cs) :
    startsPlain false c cs = true := by
  unfold Yaml.startsPlain
  split_ifs with hhyphen hother
  · have hblank := h.followed (.inl hhyphen)
    cases cs with
    | nil => rfl
    | cons d cs => simp_all [startsBlank]
  · have hblank : startsBlank cs = false := h.followed (.inr (by simpa using hother))
    simp [hblank]
  · simp [h.notBlank, h.notBreak, h.notIndicator]

/-- A token that begins like a plain scalar is one. -/
private theorem dispatch_plain {s : Scanner} {c : Char} {cs : List Char} (h : BeginsPlain c cs)
    (hmark : s.column = 0 → c ≠ '-' ∧ c ≠ '.') (hflow : s.inFlow = false) :
    s.dispatch c cs = s.plain := by
  have hne (d : Char) (hd : isIndicator d = true) : c ≠ d := by
    rintro rfl
    simp [h.notIndicator] at hd
  have hmarker (d : Char) (hd : s.column = 0 → c ≠ d) :
      (decide (s.column = 0) && startsMarker d (c :: cs)) = false := by
    by_cases hcolumn : s.column = 0
    · simp [startsMarker, hd hcolumn]
    · simp [hcolumn]
  have hfollowed (d : Char) (hd : d = '-' ∨ d = '?' ∨ d = ':') :
      (decide (c = d) && startsBlank cs) = false := by
    by_cases hc : c = d
    · simp [h.followed (hc ▸ hd)]
    · simp [hc]
  -- none of the cases in front of the plain scalar applies
  unfold dispatch
  simp only [hmarker '-' fun hcolumn => (hmark hcolumn).1,
    hmarker '.' fun hcolumn => (hmark hcolumn).2,
    hfollowed '-' (by simp), hfollowed '?' (by simp), hfollowed ':' (by simp), hflow, h.startsPlain,
    hne '%' rfl, hne '[' rfl, hne '\x7b' rfl, hne ']' rfl, hne '\x7d' rfl, hne ',' rfl, hne '*' rfl,
    hne '&' rfl, hne '!' rfl, hne '|' rfl, hne '>' rfl, hne '\'' rfl, hne '"' rfl, decide_false,
    Bool.false_or, Bool.and_false, Bool.false_and, Bool.false_eq_true, if_false, if_true]

/-- Away from the margin a colon that a blank follows is that of a value. -/
theorem dispatch_value {s : Scanner} (hcolumn : s.column ≠ 0) (cs : List Char) :
    s.dispatch ':' (' ' :: cs) = s.value := by
  simp [dispatch, hcolumn, startsBlank, isBlank]

theorem dispatch_singleQuoted {s : Scanner} (hcolumn : s.column ≠ 0) (cs : List Char) :
    s.dispatch '\'' cs = s.quoted .singleQuoted := by
  simp [dispatch, hcolumn]

theorem dispatch_doubleQuoted {s : Scanner} (hcolumn : s.column ≠ 0) (cs : List Char) :
    s.dispatch '"' cs = s.quoted .doubleQuoted := by
  simp [dispatch, hcolumn]

private theorem dispatch_literal {s : Scanner} (hcolumn : s.column ≠ 0) (hflow : s.inFlow = false)
    (cs : List Char) : s.dispatch '|' cs = s.block .literal := by
  simp [dispatch, hcolumn, hflow]

/-! ### Keys -/

section Key

variable {key : String} {m : Mark} (isFirst : Bool) (ts : List Token)

/-- A key at `m` that is remembered: the entries of a mapping that has started have to begin with
one. -/
def rememberedKey (m : Mark) : PendingKey := ⟨!isFirst, ts.length, m⟩

/-- The scanner behind a key that starts at `m`: the key is remembered, and a colon follows. -/
def behindKey (key : String) (m : Mark) (tail : List Char) : Scanner :=
  amongEntries isFirst ⟨':' :: ' ' :: tail, m.right key.toList.length⟩ (.scalar .plain key :: ts)
    false (rememberedKey isFirst ts m)

/-- The scanner behind a key and its colon. The colon of the first key starts the mapping. -/
def behindColon (key : String) (m : Mark) (tail : List Char) : Scanner :=
  amongEntries false ⟨' ' :: tail, m.right (key.toList.length + 1)⟩
    (.value :: .scalar .plain key :: .key :: ((if isFirst then [.blockMappingStart] else []) ++ ts))
    false none

/-- A plain scalar at the start of a line is remembered as a key. -/
theorem plain_key (hkey : IsName key) (hm : m.column = 0) (tail : List Char) :
    (amongEntries isFirst ⟨key.toList ++ ':' :: ' ' :: tail, m⟩ ts true none).plain =
      .ok (behindKey isFirst ts key m tail) := by
  have hread (indent : Int) := readPlain_key hkey.plain indent m tail
  cases isFirst <;>
    simp [plain, saveKey, dropKey, amongEntries, behindKey, rememberedKey, inFlow, column, hm,
      hread, bind, Except.bind, pure, Except.pure, found, emit, String.ofList_toList]

/-- The first step reads the key. -/
theorem run_key (hkey : IsName key) (hm : m.column = 0) {c : Cursor} {keyAllowed : Bool}
    {tail : List Char} (hskip : skipSpace false keyAllowed false c.mark c.rest =
      (⟨key.toList ++ ':' :: ' ' :: tail, m⟩, true)) (fuel : Nat) :
    run (fuel + 1) (amongEntries isFirst c ts keyAllowed none) =
      run fuel (behindKey isFirst ts key m tail) := by
  obtain ⟨d, ds, hds⟩ := hkey.exists_cons
  have hletter : d.isAlpha := by simpa [hds] using hkey.letter
  have hmark : d ≠ '-' ∧ d ≠ '.' := by
    constructor <;> rintro rfl <;> simp at hletter
  have hbegins := BeginsPlain.of_allowsPlain (hds ▸ hkey.plain) (':' :: ' ' :: tail)
  have hplain := plain_key isFirst ts hkey hm tail
  rw [hds, List.cons_append] at hskip hplain
  exact run_among hskip rfl ((dispatch_plain hbegins (fun _ => hmark) rfl).trans hplain) fuel

/-- The colon makes the remembered key one. -/
theorem value_key (hm : m.column = 0) (tail : List Char) :
    (behindKey isFirst ts key m tail).value = .ok (behindColon isFirst ts key m tail) := by
  have hlater : ts.length + 1 + 1 - ts.length = 2 := by omega
  cases isFirst <;>
    simp [value, behindKey, behindColon, amongEntries, rememberedKey, insertAt, roll, inFlow, found,
      emit, Cursor.skip, Mark.right, hm, hlater, pure, Except.pure, Nat.add_assoc]

/-- The second step finds the colon. -/
theorem run_colon (hkey : IsName key) (hm : m.column = 0) (tail : List Char) (fuel : Nat) :
    run (fuel + 1) (behindKey isFirst ts key m tail) =
      run fuel (behindColon isFirst ts key m tail) := by
  have hskip : skipSpace false false false (m.right key.toList.length) (':' :: ' ' :: tail) =
      (⟨':' :: ' ' :: tail, m.right key.toList.length⟩, false) :=
    skipSpace_word rfl rfl (by decide) (fun h => absurd h (by decide)) false false (' ' :: tail)
  have hstale : dropStale (behindKey isFirst ts key m tail) =
      .ok (behindKey isFirst ts key m tail) := by
    have hshort : ¬1024 < key.toList.length := Nat.not_lt.mpr hkey.short
    simp [dropStale, behindKey, amongEntries, rememberedKey, PendingKey.isStale, Option.filter, hm,
      hshort]
  have hcolumn : (behindKey isFirst ts key m tail).column ≠ 0 := by
    obtain ⟨d, ds, hds⟩ := hkey.exists_cons
    simp [behindKey, amongEntries, column, hds]
  exact run_among hskip hstale ((dispatch_value hcolumn tail).trans (value_key isFirst ts hm tail))
    fuel

end Key

/-! ### Values -/

/-- Behind white space at a cursor a line starts with `rest`, and a key may stand there. -/
def Resumes (c : Cursor) (keyAllowed : Bool) (rest : List Char) : Prop :=
  ∃ m : Mark, m.column = 0 ∧ skipSpace false keyAllowed false c.mark c.rest = (⟨rest, m⟩, true)

section Value

variable {rest : List Char} {m : Mark} {cs : List Char} (ts : List Token)

/-- A line that starts is where the next entry is looked for. -/
private theorem resumes_line (hrest : StartsLine rest) (hm : m.column = 0) :
    Resumes ⟨rest, m⟩ true rest :=
  ⟨m, hm, skipSpace_startsLine hrest false true m⟩

/-- So is the end of a line behind a quoted scalar. -/
private theorem resumes_feed (hrest : StartsLine rest) (m : Mark) :
    Resumes ⟨'\n' :: rest, m⟩ false rest := by
  have hfeed : isBreak '\n' = true := rfl
  have hafter : m.after '\n' = ⟨m.line + 1, 0⟩ := m.after_of_isBreak hfeed
  refine ⟨⟨m.line + 1, 0⟩, rfl, ?_⟩
  simp [skipSpace, hfeed, hafter, skipSpace_startsLine hrest]

/-- The third step skips the space behind the colon and reads the value. -/
theorem run_behindColon {d : Char} {ds : List Char} (hblank : isBlank d = false)
    (hbreak : isBreak d = false) (hhash : d ≠ '#') {s : Scanner}
    (hread : (amongEntries false ⟨d :: ds, m.right 1⟩ ts false none).dispatch d ds = .ok s)
    (fuel : Nat) :
    run (fuel + 1) (amongEntries false ⟨' ' :: d :: ds, m⟩ ts false none) = run fuel s := by
  have hskip : skipSpace false false false m (' ' :: d :: ds) = (⟨d :: ds, m.right 1⟩, false) :=
    (skipSpace_space false false _).trans
      (skipSpace_word hblank hbreak hhash (fun _ => by simp) false false ds)
  exact run_among hskip rfl hread fuel

/-- A token where no key may start is not remembered as one. -/
private theorem keyStart_among {read : Cursor → Except Fault Found} {c c' : Cursor} {t : Token}
    (hread : read c = .ok (t, c')) : (amongEntries false c ts false none).keyStart read =
      .ok (amongEntries false c' (t :: ts) false none) := by
  simp [keyStart, saveKey, amongEntries, hread, bind, Except.bind, pure, Except.pure, found, emit]

/-- One step reads a plain value. -/
private theorem run_plain (hne : cs ≠ []) (h : allowsPlain cs) (hrest : StartsLine rest)
    (fuel : Nat) :
    run (fuel + 1) (amongEntries false ⟨' ' :: (cs ++ '\n' :: rest), m⟩ ts false none) =
      run fuel (amongEntries false ⟨rest, ⟨m.line + 1, 0⟩⟩ (.scalar .plain (String.ofList cs) :: ts)
        true none) := by
  obtain ⟨d, ds, rfl⟩ := List.exists_cons_of_ne_nil hne
  have hbegins := BeginsPlain.of_allowsPlain h ('\n' :: rest)
  have hhash : d ≠ '#' := by
    rintro rfl
    exact absurd hbegins.notIndicator (by decide)
  refine run_behindColon ts hbegins.notBlank hbegins.notBreak hhash ?_ fuel
  refine (dispatch_plain hbegins (fun hcolumn => absurd hcolumn (by simp [amongEntries, column]))
    rfl).trans ?_
  have hread := readPlain_value h Int.one_pos (m.right 1) hrest
  rw [List.cons_append] at hread
  simp [plain, saveKey, amongEntries, inFlow, hread, bind, Except.bind, pure, Except.pure, found,
    emit]

/-- One step reads a value in single quotes. -/
private theorem run_singleQuoted (h : allowsSingleQuoted cs) (rest : List Char) :
    ∃ n, ∀ fuel, run (fuel + 1) (amongEntries false
        ⟨' ' :: '\'' :: (singleQuotedBody false cs ++ '\'' :: '\n' :: rest), m⟩ ts false none) =
      run fuel (amongEntries false ⟨'\n' :: rest, n⟩
        (.scalar .singleQuoted (String.ofList cs) :: ts) false none) := by
  have htail : ('\n' :: rest).head? ≠ some '\'' := by simp
  obtain ⟨n, hread⟩ := readSingleQuoted_written (m := (m.right 1).right 1) h (by simp) htail
  refine ⟨n, run_behindColon ts rfl rfl (by decide) ?_⟩
  rw [dispatch_singleQuoted (by simp [amongEntries, column])]
  refine keyStart_among ts ?_
  simp [Cursor.skip_one, hread, bind, Except.bind, pure, Except.pure]

/-- One step reads a value in double quotes. -/
private theorem run_doubleQuoted (cs rest : List Char) :
    ∃ n, ∀ fuel, run (fuel + 1) (amongEntries false
        ⟨' ' :: '"' :: (cs.flatMap doubleQuotedChar ++ '"' :: '\n' :: rest), m⟩ ts false none) =
      run fuel (amongEntries false ⟨'\n' :: rest, n⟩
        (.scalar .doubleQuoted (String.ofList cs) :: ts) false none) := by
  obtain ⟨n, hread⟩ := readDoubleQuoted_written (m := (m.right 1).right 1) ('\n' :: rest) cs
    (by simp)
  refine ⟨n, run_behindColon ts rfl rfl (by decide) ?_⟩
  rw [dispatch_doubleQuoted (by simp [amongEntries, column])]
  refine keyStart_among ts ?_
  simp [Cursor.skip_one, hread, bind, Except.bind, pure, Except.pure]

/-- One step reads a literal value. -/
private theorem run_literal (hne : cs ≠ []) (h : allowsLiteral cs) (hrest : StartsLine rest) :
    ∃ n : Mark, n.column = 0 ∧ ∀ fuel,
      run (fuel + 1) (amongEntries false
          ⟨' ' :: (literalHeader cs ++ '\n' ::
            (literalLines true cs ++ (literalEnd cs ++ rest))), m⟩ ts false none) =
        run fuel (amongEntries false ⟨rest, n⟩ (.scalar .literal (String.ofList cs) :: ts) true
          none) := by
  obtain ⟨n, hn, hread⟩ := readBlock_literal hne h ((m.right 1).right 1) hrest
  have hheader : literalHeader cs = '|' :: (literalHeader cs).tail := rfl
  refine ⟨n, hn, ?_⟩
  rw [hheader, List.cons_append]
  refine run_behindColon ts rfl rfl (by decide) ?_
  rw [dispatch_literal (by simp [amongEntries, column]) rfl]
  simp [block, dropKey, amongEntries, Cursor.skip_one, hread, bind, Except.bind, pure, Except.pure,
    found, emit]

/-- **The value is read as the text that it was written for**, in whichever style. -/
theorem run_value (cs : List Char) (m : Mark) (hrest : StartsLine rest) :
    ∃ c keyAllowed, Resumes c keyAllowed rest ∧ ∀ fuel,
      run (fuel + 1) (amongEntries false ⟨' ' :: (writtenValue cs ++ rest), m⟩ ts false none) =
        run fuel (amongEntries false c (.scalar (writtenStyle cs) (String.ofList cs) :: ts)
          keyAllowed none) := by
  have hsuits := suits_writtenStyle cs
  cases hstyle : writtenStyle cs with
  | plain =>
    rw [hstyle] at hsuits
    obtain ⟨hambiguous, hallows⟩ := hsuits
    have hne : cs ≠ [] := by
      rintro rfl
      exact absurd hambiguous (by decide)
    refine ⟨⟨rest, ⟨m.line + 1, 0⟩⟩, true, resumes_line hrest rfl, fun fuel => ?_⟩
    simpa [writtenValue, hstyle] using run_plain ts hne hallows hrest fuel
  | singleQuoted =>
    rw [hstyle] at hsuits
    obtain ⟨n, hrun⟩ := run_singleQuoted (m := m) ts hsuits rest
    exact ⟨_, _, resumes_feed hrest n, by simpa [writtenValue, hstyle] using hrun⟩
  | doubleQuoted =>
    obtain ⟨n, hrun⟩ := run_doubleQuoted (m := m) ts cs rest
    exact ⟨_, _, resumes_feed hrest n, by simpa [writtenValue, hstyle] using hrun⟩
  | literal =>
    rw [hstyle] at hsuits
    obtain ⟨hfeed, hallows⟩ := hsuits
    obtain ⟨n, hn, hrun⟩ := run_literal (m := m) ts (List.ne_nil_of_mem hfeed) hallows hrest
    exact ⟨_, _, resumes_line hrest hn, by simpa [writtenValue_literal hstyle] using hrun⟩
  | folded =>
    rw [hstyle] at hsuits
    exact hsuits.elim

end Value

/-! ### Entries -/

/-- **An entry is read as its tokens**, and behind it the scanner is where it was in front of it. -/
theorem run_entry (isFirst : Bool) (ts : List Token) {entry : String × String}
    (hkey : IsName entry.1) {c : Cursor} {keyAllowed : Bool} {rest : List Char}
    (hc : Resumes c keyAllowed (writtenEntry entry.1 entry.2 ++ rest)) (hrest : StartsLine rest) :
    ∃ c' keyAllowed', Resumes c' keyAllowed' rest ∧ ∀ fuel,
      run (fuel + 3) (amongEntries isFirst c ts keyAllowed none) =
        run fuel (amongEntries false c' ((entryTokens entry).reverse ++
          ((if isFirst then [.blockMappingStart] else []) ++ ts)) keyAllowed' none) := by
  obtain ⟨m, hm, hskip⟩ := hc
  have htext : writtenEntry entry.1 entry.2 ++ rest =
      entry.1.toList ++ ':' :: ' ' :: (writtenValue entry.2.toList ++ rest) := by
    simp [writtenEntry]
  rw [htext] at hskip
  obtain ⟨c', keyAllowed', hc', hvalue⟩ := run_value
    (.value :: .scalar .plain entry.1 :: .key ::
      ((if isFirst then [.blockMappingStart] else []) ++ ts))
    entry.2.toList (m.right (entry.1.toList.length + 1)) hrest
  refine ⟨c', keyAllowed', hc', fun fuel => ?_⟩
  rw [run_key isFirst ts hkey hm hskip, run_colon isFirst ts hkey hm, behindColon, hvalue,
    String.ofList_toList]
  rfl

/-- Behind the last entry the mapping ends. -/
theorem run_end (ts : List Token) {c : Cursor} {keyAllowed : Bool} (hc : Resumes c keyAllowed [])
    (fuel : Nat) :
    run (fuel + 1) (amongEntries false c ts keyAllowed none) = .ok (ts.reverse ++ [.blockEnd]) := by
  obtain ⟨m, -, hskip⟩ := hc
  have hspace : skipSpace (amongEntries false c ts keyAllowed none).inFlow keyAllowed false c.mark
      c.rest = (⟨[], m⟩, true) := hskip
  have hstale : dropStale (amongEntries false ⟨[], m⟩ ts true none) =
      .ok (amongEntries false ⟨[], m⟩ ts true none) := rfl
  have hfinish : finish (amongEntries false ⟨[], m⟩ ts true none) =
      .ok (ts.reverse ++ [.blockEnd]) := by
    rw [← List.reverse_cons]
    rfl
  unfold amongEntries at hspace hstale hfinish ⊢
  simp only [run, hspace, hstale, bind, Except.bind, hfinish]

/-- Entries start a line. -/
private theorem startsLine_writtenRecord {entries : List (String × String)}
    (hkeys : ∀ entry ∈ entries, IsName entry.1) : StartsLine (writtenRecord entries) := by
  cases entries with
  | nil => simp [writtenRecord, StartsLine]
  | cons entry entries =>
    have hkey := hkeys entry (List.mem_cons_self ..)
    obtain ⟨c, cs, hcs⟩ := hkey.exists_cons
    simpa [writtenRecord, writtenEntry, StartsLine, hcs] using hkey.letter

/-- Entries of a mapping that has started, and its end. -/
theorem run_entries {entries : List (String × String)} (hkeys : ∀ entry ∈ entries, IsName entry.1)
    (ts : List Token) {c : Cursor} {keyAllowed : Bool}
    (hc : Resumes c keyAllowed (writtenRecord entries)) {fuel : Nat}
    (hfuel : 3 * entries.length < fuel) :
    run fuel (amongEntries false c ts keyAllowed none) =
      .ok (ts.reverse ++ entries.flatMap entryTokens ++ [.blockEnd]) := by
  induction entries generalizing ts c keyAllowed fuel with
  | nil =>
    obtain ⟨fuel, rfl⟩ := Nat.exists_eq_add_of_lt hfuel
    simpa using run_end ts hc fuel
  | cons entry entries ih =>
    obtain ⟨hkey, hkeys⟩ := List.forall_mem_cons.mp hkeys
    rw [List.length_cons] at hfuel
    obtain ⟨fuel, rfl⟩ : ∃ k, fuel = k + 3 := ⟨fuel - 3, by omega⟩
    obtain ⟨c', keyAllowed', hc', hentry⟩ :=
      run_entry false ts hkey hc (startsLine_writtenRecord hkeys)
    rw [hentry, ih hkeys _ hc' (by omega)]
    simp

end Scanner

/-- A record whose keys are names is printable. -/
private theorem printable_writtenRecord {entries : List (String × String)}
    (hkeys : ∀ entry ∈ entries, IsName entry.1) : Printable (writtenRecord entries) := by
  induction entries with
  | nil => exact printable_nil
  | cons entry entries ih =>
    obtain ⟨hkey, hkeys⟩ := List.forall_mem_cons.mp hkeys
    have hentry := printable_writtenEntry (Printable.of_allowsPlain hkey.plain) entry.2
    exact printable_append.mpr ⟨hentry, ih hkeys⟩

/-- An entry has at least as many characters as the scanner takes steps for it. -/
private theorem length_writtenRecord_ge {entries : List (String × String)}
    (hkeys : ∀ entry ∈ entries, IsName entry.1) :
    3 * entries.length ≤ (writtenRecord entries).length := by
  induction entries with
  | nil => exact Nat.le_refl 0
  | cons entry entries ih =>
    obtain ⟨hkey, hkeys⟩ := List.forall_mem_cons.mp hkeys
    obtain ⟨c, cs, hcs⟩ := hkey.exists_cons
    have hentry : 3 ≤ (writtenEntry entry.1 entry.2).length := by
      simp only [writtenEntry, hcs, List.length_append, List.length_cons]
      omega
    have hrest := ih hkeys
    rw [writtenRecord_cons, List.length_append, List.length_cons]
    omega

/-- **A written record is read as its entries.** -/
theorem tokens_writtenRecord {entries : List (String × String)} (hne : entries ≠ [])
    (hkeys : ∀ entry ∈ entries, IsName entry.1) :
    tokens (String.ofList (writtenRecord entries)) =
      .ok (.blockMappingStart :: entries.flatMap entryTokens ++ [.blockEnd]) := by
  have hlength := length_writtenRecord_ge hkeys
  have hline := Scanner.startsLine_writtenRecord hkeys
  rw [tokens_of_printable (printable_writtenRecord hkeys)]
  obtain ⟨entry, entries, rfl⟩ := List.exists_cons_of_ne_nil hne
  obtain ⟨hkey, hkeys⟩ := List.forall_mem_cons.mp hkeys
  rw [writtenRecord_cons] at hline hlength ⊢
  rw [List.length_cons] at hlength
  generalize htext : writtenEntry entry.1 entry.2 ++ writtenRecord entries = text at *
  obtain ⟨fuel, hfuel⟩ : ∃ k, text.length + 1 = k + 3 := ⟨text.length - 2, by omega⟩
  -- The text starts a line, so the scanner is in front of the first entry from the start.
  have hinitial : Scanner.run (fuel + 3) { cursor := ⟨text, {}⟩ } =
      Scanner.run (fuel + 3) (Scanner.amongEntries true ⟨text, {}⟩ [] true none) := rfl
  have hstart : Scanner.Resumes ⟨text, {}⟩ true
      (writtenEntry entry.1 entry.2 ++ writtenRecord entries) := by
    rw [htext]
    exact Scanner.resumes_line hline rfl
  obtain ⟨c, keyAllowed, hc, hfirst⟩ := Scanner.run_entry true [] hkey hstart
    (Scanner.startsLine_writtenRecord hkeys)
  rw [hfuel, hinitial, hfirst, Scanner.run_entries hkeys _ hc (by omega)]
  simp

end PointScope.Yaml
