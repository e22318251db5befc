import PointScope.Proofs.Script.Munch
import Mathlib.Data.List.DropRight

/-!
# Where tokens stand

The place behind a text can be told from the text alone: its line is one more than the line feeds
in the text, and its column one more than the characters behind the last of them
(`Position.behind`). Every token, the end of the script included, and every report on a character
stands at the place behind the text before it (`positions_exact`). No piece is empty, so that each
token stands behind the one before it (`place_pairwise`).
-/

namespace PointScope.Script

/-! ### The place behind a text -/

namespace Position

/-- The place behind the text that a script starts with. Only line feeds start a new line. -/
def behind (before : List Char) : Position :=
  ⟨1 + before.count '\n', 1 + (before.rtakeWhile (· ≠ '\n')).length⟩

theorem behind_concat (before : List Char) (c : Char) :
    behind (before ++ [c]) = (behind before).after c := by
  by_cases hc : c = '\n'
  · simp [behind, after, hc, Nat.add_assoc]
  · simp [behind, after, hc, Nat.add_assoc]

/-- Walking over the text leads to the place behind it. -/
theorem advance_start (cs : List Char) : start.advance cs = behind cs := by
  induction cs using List.reverseRecOn with
  | nil => rfl
  | append_singleton cs c ih => rw [advance_append, ih, behind_concat]; rfl

/-! ### The order of places -/

/-- One place is on an earlier line than the other, or further left on the same line. -/
def Before (p q : Position) : Prop :=
  p.line < q.line ∨ p.line = q.line ∧ p.column < q.column

/-- Positions are in order. -/
theorem Before.trans {p q r : Position} (hpq : p.Before q) (hqr : q.Before r) : p.Before r := by
  unfold Before at *
  omega

/-- Every character leads to a later position. -/
private theorem before_after (p : Position) (c : Char) : p.Before (p.after c) := by
  unfold Before after
  split
  · exact .inl (Nat.lt_succ_self _)
  · exact .inr ⟨rfl, Nat.lt_succ_self _⟩

/-- Each character leads further on. -/
theorem before_advance (p : Position) {cs : List Char} (hcs : cs ≠ []) :
    p.Before (p.advance cs) := by
  induction cs generalizing p with
  | nil => exact absurd rfl hcs
  | cons c cs ih =>
    have hfirst := p.before_after c
    by_cases hrest : cs = []
    · rw [hrest]
      exact hfirst
    · exact hfirst.trans (ih (p.after c) hrest)

end Position

/-! ### Pieces and the text before them -/

/-- The pieces with the text before each one, when `before` stands before the first. -/
def withBefore (before : List Char) : List Piece → List (List Char × Piece)
  | [] => []
  | piece :: rest => (before, piece) :: withBefore (before ++ piece.text) rest

/-- A piece is placed behind the characters of those before it. -/
private theorem place_behind (before : List Char) (ps : List Piece) :
    place (.behind before) ps =
      (withBefore before ps).map fun (text, piece) => (.behind text, piece) := by
  induction ps generalizing before with
  | nil => rfl
  | cons piece ps ih =>
    have hnext : (Position.behind before).advance piece.text = .behind (before ++ piece.text) := by
      rw [← Position.advance_start, ← Position.advance_start, Position.advance_append]
    rw [place, hnext, ih, withBefore, List.map_cons]

/-- Each piece stands behind the text before it. -/
private theorem append_of_mem_withBefore {before text : List Char} {piece : Piece} {ps : List Piece}
    (h : (text, piece) ∈ withBefore before ps) :
    ∃ rest, before ++ ps.flatMap Piece.text = text ++ piece.text ++ rest := by
  induction ps generalizing before with
  | nil => cases h
  | cons first ps ih =>
    rw [List.flatMap_cons, ← List.append_assoc]
    rcases List.mem_cons.mp h with heq | h
    · cases heq
      exact ⟨_, rfl⟩
    · exact ih h

/-! ### The order of pieces -/

/-- Every piece of a script has a character. -/
theorem text_ne_nil_of_mem_pieces {cs : List Char} {piece : Piece} (h : piece ∈ pieces cs) :
    piece.text ≠ [] := by
  cases piece with
  | blank c | stray c => exact List.cons_ne_nil c []
  | lexeme kind text => exact ((munches_iff.mpr rfl).isLexeme h).ne_nil

/-- A piece stands as far on as the pieces before it reach. -/
private theorem exists_of_mem_place {p q : Position} {piece : Piece} {ps : List Piece}
    (h : (q, piece) ∈ place p ps) :
    ∃ as bs, ps = as ++ piece :: bs ∧ q = p.advance (as.flatMap Piece.text) := by
  induction ps generalizing p with
  | nil => cases h
  | cons first ps ih =>
    rcases List.mem_cons.mp h with heq | h
    · cases heq
      exact ⟨[], ps, rfl, rfl⟩
    · obtain ⟨as, bs, rfl, rfl⟩ := ih h
      exact ⟨first :: as, bs, rfl, by rw [List.flatMap_cons, Position.advance_append]⟩

section Order

variable {ps : List Piece} (hps : ∀ piece ∈ ps, piece.text ≠ [])

include hps

/-- Each piece stands behind all that are in front of it. -/
theorem place_pairwise (p : Position) :
    (place p ps).Pairwise fun a b => a.1.Before b.1 := by
  induction ps generalizing p with
  | nil => exact List.Pairwise.nil
  | cons piece ps ih =>
    obtain ⟨hpiece, hrest⟩ := List.forall_mem_cons.mp hps
    refine List.pairwise_cons.mpr ⟨?_, ih hrest _⟩
    rintro ⟨q, other⟩ hmem
    obtain ⟨as, bs, -, rfl⟩ := exists_of_mem_place hmem
    rw [← Position.advance_append]
    exact p.before_advance (List.append_ne_nil_of_left_ne_nil hpiece _)

/-- All pieces stand before the end of the text. -/
private theorem before_end_of_mem_place {p : Position} {placed : Position × Piece}
    (h : placed ∈ place p ps) : placed.1.Before (p.advance (ps.flatMap Piece.text)) := by
  obtain ⟨q, piece⟩ := placed
  obtain ⟨as, bs, rfl, rfl⟩ := exists_of_mem_place h
  have hpiece : piece.text ≠ [] := hps piece (List.mem_append_right _ List.mem_cons_self)
  rw [List.flatMap_append, List.flatMap_cons, Position.advance_append]
  exact Position.before_advance _ (List.append_ne_nil_of_left_ne_nil hpiece _)

end Order

private theorem position_of_token? {p : Position} {piece : Piece} {t : Token}
    (h : piece.token? p = some t) : t.position = p := by
  cases piece with
  | lexeme kind text => cases h; rfl
  | _ => cases h

/-- **Positions are exact.** Every token and every report on a character stands at the place behind
the text before it, in which the line feeds are counted for the line, and the characters behind the
last of them for the column. So each token stands behind all tokens before it. -/
theorem positions_exact (source : String) :
    (tokenize source).tokens =
        ((withBefore [] (pieces source.toList)).filterMap fun (before, piece) =>
            piece.token? (.behind before)) ++
          [⟨.endOfScript, "", .behind source.toList⟩] ∧
      (tokenize source).diagnostics =
        ((withBefore [] (pieces source.toList)).filterMap fun (before, piece) =>
          piece.issue?.map (⟨·, .behind before⟩)) ∧
      (∀ before piece, (before, piece) ∈ withBefore [] (pieces source.toList) →
        ∃ rest, source.toList = before ++ piece.text ++ rest) ∧
      (tokenize source).tokens.Pairwise fun t u => t.position.Before u.position := by
  have hplace : place .start (pieces source.toList) =
      (withBefore [] (pieces source.toList)).map fun (text, piece) => (.behind text, piece) :=
    place_behind [] _
  refine ⟨?_, ?_, ?_, ?_⟩
  · rw [tokenize_eq, hplace, Position.advance_start, tokensOf, List.filterMap_map]
    rfl
  · rw [tokenize_eq, hplace, strayOf, List.filterMap_map]
    rfl
  · intro before piece hmem
    obtain ⟨rest, hrest⟩ := append_of_mem_withBefore hmem
    rw [List.nil_append, text_pieces] at hrest
    exact ⟨rest, hrest⟩
  · have htexts : ∀ piece ∈ pieces source.toList, piece.text ≠ [] :=
      fun piece => text_ne_nil_of_mem_pieces
    rw [tokenize_eq]
    refine List.pairwise_append.mpr ⟨?_, List.pairwise_singleton _ _, ?_⟩
    · refine (place_pairwise htexts .start).filterMap _ ?_
      intro a b hab t ht u hu
      rw [position_of_token? ht, position_of_token? hu]
      exact hab
    · -- the end stands behind every piece
      intro t ht u hu
      rw [List.mem_singleton.mp hu]
      obtain ⟨placed, hplaced, htoken⟩ := List.mem_filterMap.mp ht
      have hbefore := before_end_of_mem_place htexts hplaced
      rw [text_pieces] at hbefore
      rw [position_of_token? htoken]
      exact hbefore

end PointScope.Script
