import PointScope.Proofs.Yaml.Entries
import PointScope.Yaml.Record

/-!
# Reading records back

The tokens of a written record make a document whose root is a mapping of its entries, in order
(`readStream_entries`). Its keys and values are scalars without tags or anchors, so the record has
the keys as names and the values as they were given (`ofText_written`). A field is found by its name
if no other entry has that name; `text_written` puts all of this together.
-/

namespace PointScope.Yaml

/-- The key and the value of an entry as nodes of a document. -/
def entryNodes (entry : String × String) : Node × Node :=
  (.scalar { text := entry.1 }, .scalar { style := writtenStyle entry.2.toList, text := entry.2 })

/-! ### Documents -/

section Document

variable (handles : Handles) (a : Anchors)

private theorem readNode_scalar (inBlock atKey : Bool) (fuel : Nat) (style : Style) (text : String)
    (ts : List Token) :
    readNode handles inBlock atKey (fuel + 1) a (.scalar style text :: ts) =
      .ok (.scalar { style, text }, a, ts) := by
  rw [readNode]
  · rfl
  · intro name ts' halias
    cases halias

/-- A scalar is no token that leaves a node out. -/
theorem readOptional_scalar (inBlock atKey : Bool) {absent : List Token} {style : Style}
    {text : String} (h : Token.scalar style text ∉ absent) (fuel : Nat) (ts : List Token) :
    readOptional handles inBlock atKey absent (fuel + 2) a (.scalar style text :: ts) =
      .ok (.scalar { style, text }, a, ts) := by
  have hnext : nextIs absent (.scalar style text :: ts) = false := by
    simpa [nextIs] using h
  rw [readOptional, hnext, readNode_scalar]
  rfl

/-- **The tokens of entries are read as the entries of a mapping**, and no anchor is defined. -/
theorem readBlockEntries_entries (entries : List (String × String)) (rest : List Token) {fuel : Nat}
    (hfuel : entries.length + 3 ≤ fuel) :
    readBlockEntries handles fuel a (entries.flatMap entryTokens ++ .blockEnd :: rest) =
      .ok (entries.map entryNodes, a, rest) := by
  induction entries generalizing fuel with
  | nil =>
    obtain ⟨fuel, rfl⟩ : ∃ k, fuel = k + 1 := ⟨fuel - 1, by omega⟩
    rw [List.flatMap_nil, List.nil_append, readBlockEntries]
    rfl
  | cons entry entries ih =>
    rw [List.length_cons] at hfuel
    obtain ⟨fuel, rfl⟩ : ∃ k, fuel = k + 3 := ⟨fuel - 3, by omega⟩
    -- an entry takes one step of the fuel
    have hrest : readBlockEntries handles (fuel + 2) a
          (entries.flatMap entryTokens ++ .blockEnd :: rest) =
        .ok (entries.map entryNodes, a, rest) :=
      ih (by omega)
    have htokens : (entry :: entries).flatMap entryTokens ++ .blockEnd :: rest =
        .key :: .scalar .plain entry.1 :: .value :: .scalar (writtenStyle entry.2.toList) entry.2 ::
          (entries.flatMap entryTokens ++ .blockEnd :: rest) := by
      simp [entryTokens]
    rw [htokens, readBlockEntries]
    simp only [bind, Except.bind]
    rw [readOptional_scalar handles a true true (by simp)]
    simp only
    rw [readOptional_scalar handles a true true (by simp)]
    simp only [hrest]
    rfl

end Document

/-- A block mapping at the root of a document holds its entries. -/
theorem readRoot_entries (entries : List (String × String)) :
    readRoot false [] (.blockMappingStart :: (entries.flatMap entryTokens ++ [.blockEnd])) =
      .ok (.mapping (entries.map entryNodes), {}, []) := by
  -- the fuel is the number of tokens, and each entry has at least one
  have hlength : entries.length ≤ (entries.flatMap entryTokens).length := by
    induction entries with
    | nil => exact Nat.le_refl 0
    | cons entry entries ih =>
      simp only [List.flatMap_cons, List.length_append, List.length_cons, entryTokens]
      omega
  have hentries (fuel : Nat) (hfuel : entries.length + 3 ≤ fuel) :=
    readBlockEntries_entries ([] ++ defaultHandles) {} entries [] hfuel
  unfold readRoot
  simp only [Bool.false_and, Bool.false_eq_true, if_false]
  rw [readNode]
  · simp only [splitProperties, resolveTag, bind, Except.bind, Anchors.define]
    rw [hentries _ (by simp only [List.length_cons, List.length_append]; omega)]
    rfl
  · intro name ts' halias
    cases halias

/-- **The tokens of a record make a document with its entries.** -/
theorem readStream_entries (entries : List (String × String)) :
    readStream (.blockMappingStart :: entries.flatMap entryTokens ++ [.blockEnd]) =
      .ok (some { root := .mapping (entries.map entryNodes) }) := by
  simp [readStream, Token.isDirective, readDirectives, bind, Except.bind, readRoot_entries, pure,
    Except.pure]

/-! ### Fields -/

/-- The record of entries. -/
def recordOf (entries : List (String × String)) : Record where
  document := { root := .mapping (entries.map entryNodes) }
  fields := entries.map fun entry => (entry.1, (entryNodes entry).2)

/-- A mapping of scalars is read as a record of the same entries. -/
private theorem ofDocument_entries (entries : List (String × String)) :
    Record.ofDocument { root := .mapping (entries.map entryNodes) } = .ok (recordOf entries) := by
  unfold Record.ofDocument
  simp only [List.mapM_map]
  change (do
    let fields ← entries.mapM fun entry : String × String => pure (entry.1, (entryNodes entry).2)
    return Record.mk { root := .mapping (entries.map entryNodes) } fields) = _
  rw [List.mapM_pure]
  rfl

/-- **A written record is read as the record of its entries.** -/
theorem ofText_written {entries : List (String × String)} (hne : entries ≠ [])
    (hkeys : ∀ entry ∈ entries, IsName entry.1) :
    Record.ofText (String.ofList (writtenRecord entries)) = .ok (recordOf entries) := by
  rw [Record.ofText, tokens_writtenRecord hne hkeys]
  simp only [bind, Except.bind, readStream_entries, ofDocument_entries]

/-- If names are different, a name belongs to one entry. -/
private theorem filter_name {entries : List (String × String)}
    (hkeys : (entries.map Prod.fst).Nodup)
    {entry : String × String} (hentry : entry ∈ entries) :
    (entries.filter fun e => e.1 == entry.1) = [entry] := by
  induction entries with
  | nil => simp at hentry
  | cons e entries ih =>
    rw [List.map_cons, List.nodup_cons] at hkeys
    obtain ⟨hnew, hkeys⟩ := hkeys
    rcases List.mem_cons.mp hentry with rfl | hmem
    · -- names differ, so no later entry has this one
      have hothers : (entries.filter fun e => e.1 == entry.1) = [] := by
        rw [List.filter_eq_nil_iff]
        intro e he hsame
        exact hnew (List.mem_map.mpr ⟨e, he, by simpa using hsame⟩)
      simp [hothers]
    · have hne : e.1 ≠ entry.1 := by
        intro hsame
        exact hnew (List.mem_map.mpr ⟨entry, hmem, hsame.symm⟩)
      simp [hne, ih hkeys hmem]

/-- The text of a field whose name no other entry has. -/
theorem text_recordOf {entries : List (String × String)} (hkeys : (entries.map Prod.fst).Nodup)
    {entry : String × String} (hentry : entry ∈ entries) :
    (recordOf entries).text entry.1 = .ok entry.2 := by
  have hfield : ((recordOf entries).fields.filter fun field => field.1 == entry.1) =
      [(entry.1, (entryNodes entry).2)] := by
    rw [recordOf, List.filter_map]
    exact congrArg (List.map _) (filter_name hkeys hentry)
  simp only [Record.text, Record.scalar?, hfield]
  rfl

end PointScope.Yaml
