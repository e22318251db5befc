import PointScope.Script.Lexer

/-!
# Cutting a script in two

The pieces of a script, written one after another, are the script (`text_pieces`). No piece
reaches across a *barrier*, a character that can continue no lexeme: the pieces of a script with
a barrier in it are those of the text before the barrier, followed by those of the text that
starts with it (`pieces_append_barrier`). Blanks, line breaks, parentheses and commas are
barriers.
-/

namespace PointScope.Script

/-! ### Barriers -/

/-- A character that goes on no name and no number and is no second character of an operator. -/
def isBarrier (c : Char) : Bool :=
  !isNamePart c && !isNumberPart c && c != '=' && c != '&' && c != '|'

section Barrier

variable {b : Char} (hb : isBarrier b = true)

include hb

private theorem isNamePart_of_isBarrier : isNamePart b = false := by
  simp only [isBarrier, Bool.and_eq_true, Bool.not_eq_true'] at hb
  exact hb.1.1.1.1

private theorem isNumberPart_of_isBarrier : isNumberPart b = false := by
  simp only [isBarrier, Bool.and_eq_true, Bool.not_eq_true'] at hb
  exact hb.1.1.1.2

private theorem isDigit_of_isBarrier : b.isDigit = false := by
  have h := isNumberPart_of_isBarrier hb
  rw [isNumberPart, Bool.or_eq_false_iff] at h
  exact h.1

/-- No operator has a barrier behind its first character. -/
private theorem not_mem_tail_symbol (op : Operator) : b ∉ op.symbol.toList.tail := by
  intro hmem
  have hsecond : op.symbol.toList.tail.all (!isBarrier ·) = true := by
    cases op <;> rfl
  have hnot := List.all_eq_true.mp hsecond b hmem
  rw [hb] at hnot
  cases hnot

end Barrier

/-! ### Runs of characters -/

/-- A run of characters ends before a character that does not belong to it. -/
private theorem takeWhile_append_cons {p : Char → Bool} {b : Char} (hb : p b = false)
    (cs ds : List Char) :
    (cs ++ b :: ds).takeWhile p = cs.takeWhile p := by
  induction cs with
  | nil => simp [hb]
  | cons c cs ih => simp only [List.cons_append, List.takeWhile_cons, ih]

@[inherit_doc takeWhile_append_cons]
private theorem dropWhile_append_cons {p : Char → Bool} {b : Char} (hb : p b = false)
    (cs ds : List Char) :
    (cs ++ b :: ds).dropWhile p = cs.dropWhile p ++ b :: ds := by
  induction cs with
  | nil => simp [hb]
  | cons c cs ih =>
    simp only [List.cons_append, List.dropWhile_cons, ih]
    split <;> rfl

/-- Whether a text starts with a word is not changed by what follows a character that the word
does not contain. -/
private theorem isPrefixOf_append_cons {w : List Char} {b : Char} (hb : b ∉ w) (cs ds : List Char) :
    w.isPrefixOf (cs ++ b :: ds) = w.isPrefixOf cs := by
  induction w generalizing cs with
  | nil => simp
  | cons a w ih =>
    obtain ⟨hab, hw⟩ := not_or.mp (mt List.mem_cons.mpr hb)
    cases cs with
    | nil => simp [List.isPrefixOf, Ne.symm hab]
    | cons c cs => simp [List.isPrefixOf, ih hw]

/-! ### The first piece -/

/-- What `operatorAt?` finds is what the text starts with. -/
theorem symbol_prefix_of_operatorAt? {cs : List Char} {op : Operator}
    (hop : operatorAt? cs = some op) : op.symbol.toList <+: cs := by
  have hprefix : op.symbol.toList.isPrefixOf cs = true :=
    List.find?_some (p := fun op : Operator => op.symbol.toList.isPrefixOf cs) hop
  exact List.isPrefixOf_iff_prefix.mp hprefix

/-- An operator that was found is no longer than the text. -/
private theorem drop_symbol_append {b c : Char} {cs ds : List Char} {op : Operator}
    (hop : operatorAt? (c :: cs) = some op) :
    (cs ++ b :: ds).drop op.symbol.toList.tail.length =
      cs.drop op.symbol.toList.tail.length ++ b :: ds := by
  refine List.drop_append_of_le_length ?_
  have hlength := (symbol_prefix_of_operatorAt? hop).length_le
  simp only [List.length_cons, List.length_tail] at hlength ⊢
  omega

section FirstPiece

variable {b : Char} (hb : isBarrier b = true)

include hb

private theorem startsNumber_append (c : Char) (cs ds : List Char) :
    startsNumber c (cs ++ b :: ds) = startsNumber c cs := by
  cases cs with
  | nil => simp [startsNumber, isDigit_of_isBarrier hb]
  | cons => rfl

private theorem punctuation?_append (c : Char) (cs ds : List Char) :
    punctuation? c (cs ++ b :: ds) = punctuation? c cs := by
  have hne : b ≠ '=' := by
    rintro rfl
    exact absurd hb (by decide)
  cases cs with
  | nil => simp [punctuation?, hne]
  | cons => rfl

private theorem operatorAt?_append (c : Char) (cs ds : List Char) :
    operatorAt? (c :: (cs ++ b :: ds)) = operatorAt? (c :: cs) := by
  have hprefix : ∀ op : Operator, op.symbol.toList.isPrefixOf (c :: (cs ++ b :: ds)) =
      op.symbol.toList.isPrefixOf (c :: cs) := by
    intro op
    have htail := not_mem_tail_symbol hb op
    generalize op.symbol.toList = w at htail ⊢
    cases w with
    | nil => rfl
    | cons a w =>
      rw [List.tail_cons] at htail
      simp only [List.isPrefixOf, isPrefixOf_append_cons htail]
  unfold operatorAt?
  congr 1
  funext op
  exact hprefix op

/-- The first piece of a text ends at a barrier at the latest. -/
theorem firstPiece_append (c : Char) (cs ds : List Char) :
    firstPiece c (cs ++ b :: ds) =
      ((firstPiece c cs).1, (firstPiece c cs).2 ++ b :: ds) := by
  unfold firstPiece
  -- no test on the text and no run of characters looks behind the barrier
  rw [startsNumber_append hb, punctuation?_append hb, operatorAt?_append hb,
    takeWhile_append_cons (isNumberPart_of_isBarrier hb),
    dropWhile_append_cons (isNumberPart_of_isBarrier hb),
    takeWhile_append_cons (isNamePart_of_isBarrier hb),
    dropWhile_append_cons (isNamePart_of_isBarrier hb)]
  cases isBlank c
  case true => rfl
  cases startsNumber c cs
  case true => rfl
  cases isNameStart c
  case true => rfl
  cases punctuation? c cs with
  | some kind => rfl
  | none =>
    cases hop : operatorAt? (c :: cs) with
    | none => rfl
    | some op =>
      simp only [Bool.false_eq_true, if_false, drop_symbol_append hop]

/-- **No piece reaches across a barrier.** -/
theorem pieces_append_barrier (cs ds : List Char) :
    pieces (cs ++ b :: ds) = pieces cs ++ pieces (b :: ds) := by
  induction cs using pieces.induct with
  | case1 => simp [pieces]
  | case2 c cs ih =>
    rw [List.cons_append, pieces, firstPiece_append hb, ih, pieces.eq_def (c :: cs)]
    rfl

end FirstPiece

/-! ### Nothing is lost -/

theorem symbol_ne_nil (op : Operator) : op.symbol.toList ≠ [] := by
  cases op <;> decide +kernel

/-- An operator that a text starts with consists of the first character and what is dropped. -/
private theorem symbol_append_drop {c : Char} {cs : List Char} {op : Operator}
    (hop : operatorAt? (c :: cs) = some op) :
    op.symbol.toList.tail ++ cs.drop op.symbol.toList.tail.length = cs := by
  obtain ⟨rest, hrest⟩ := symbol_prefix_of_operatorAt? hop
  -- the symbol has a first character, which is the one in front
  have hne := symbol_ne_nil op
  generalize op.symbol.toList = w at hrest hne ⊢
  cases w with
  | nil => exact absurd rfl hne
  | cons a w =>
    obtain ⟨-, rfl⟩ := List.cons.inj hrest
    simp

/-- The first piece and what follows it are the text. -/
theorem text_firstPiece (c : Char) (cs : List Char) :
    (firstPiece c cs).1.text ++ (firstPiece c cs).2 = c :: cs := by
  unfold firstPiece
  cases isBlank c
  case true => rfl
  cases startsNumber c cs
  case true => exact congrArg (c :: ·) List.takeWhile_append_dropWhile
  cases isNameStart c
  case true => exact congrArg (c :: ·) List.takeWhile_append_dropWhile
  cases punctuation? c cs with
  | some kind => rfl
  | none =>
    cases hop : operatorAt? (c :: cs) with
    | none => rfl
    | some op => exact congrArg (c :: ·) (symbol_append_drop hop)

/-- **Nothing is lost.** The pieces of a text, one after another, are the text. -/
theorem text_pieces (cs : List Char) : (pieces cs).flatMap Piece.text = cs := by
  induction cs using pieces.induct with
  | case1 => simp [pieces]
  | case2 c cs ih => rw [pieces, List.flatMap_cons, ih, text_firstPiece]

/-- The end of a script is no piece of it. -/
theorem firstPiece_kind_ne (c : Char) (cs : List Char) (text : List Char) :
    (firstPiece c cs).1 ≠ .lexeme .endOfScript text := by
  have hpunctuation : punctuation? c cs ≠ some .endOfScript := by
    unfold punctuation?
    split <;> simp
  intro h
  unfold firstPiece at h
  repeat' split at h
  all_goals simp_all

/-- No piece of a script is its end. -/
theorem pieces_kind_ne {cs : List Char} {piece : Piece} (h : piece ∈ pieces cs)
    (text : List Char) : piece ≠ .lexeme .endOfScript text := by
  induction cs using pieces.induct with
  | case1 => simp [pieces] at h
  | case2 c cs ih =>
    rw [pieces] at h
    cases h with
    | head => exact firstPiece_kind_ne c cs text
    | tail _ h => exact ih h

end PointScope.Script
