import PointScope.Proofs.Yaml.Records
import PointScope.Preset.Basic

/-!
# Presets survive saving

A preset is written as a record with one entry for its name and one for each phase. Nothing is asked
of its five texts: whatever they hold, the record is read back as it was written, and so is the
preset (`Preset.ofYaml_toYaml`).

What is written to a file is what is read from it (`FileTree.read_write`), so the same holds of a
preset that is saved, in whatever tree and at whatever path (`Preset.load_save`).
-/

namespace PointScope

namespace Preset

/-- The entries that a preset is written as. -/
def entries (p : Preset) : List (String × String) :=
  ("name", p.name) :: Phase.all.map fun phase => (phase.name, p.scripts.get phase)

/-- A preset is written as the record of its entries. -/
private theorem toYaml_eq (p : Preset) :
    p.toYaml = String.ofList (Yaml.writtenRecord p.entries) := by
  rw [toYaml, Yaml.writtenRecord, entries, List.flatMap_cons, List.flatMap_map]

/-- The names of the fields are fit for keys. -/
private theorem isName_of_mem_entries (p : Preset) : ∀ entry ∈ p.entries, Yaml.IsName entry.1 := by
  have hname : Yaml.IsName "name" := ⟨by decide, by decide, by decide⟩
  have hphase (phase : Phase) : Yaml.IsName phase.name := by
    cases phase <;> exact ⟨by decide, by decide, by decide⟩
  intro entry hentry
  rcases List.mem_cons.mp hentry with rfl | hmem
  · exact hname
  · obtain ⟨phase, -, rfl⟩ := List.mem_map.mp hmem
    exact hphase phase

/-- No name is that of two fields. -/
private theorem nodup_entries (p : Preset) : (p.entries.map Prod.fst).Nodup := by
  have hnames : p.entries.map Prod.fst = ["name", "init", "frame", "beat", "point"] := rfl
  rw [hnames]
  decide

/-- The script of a phase is read back from the record of the entries. -/
private theorem text_entries (p : Preset) (phase : Phase) :
    (Yaml.recordOf p.entries).text phase.name = .ok (p.scripts.get phase) := by
  have hall : phase ∈ Phase.all := by
    cases phase <;> decide
  have hentry : (phase.name, p.scripts.get phase) ∈ p.entries :=
    List.mem_cons_of_mem _ (List.mem_map.mpr ⟨phase, hall, rfl⟩)
  exact Yaml.text_recordOf p.nodup_entries hentry

/-- The entries of a preset are read as the preset. -/
theorem ofYaml_entries (p : Preset) :
    Preset.ofYaml (String.ofList (Yaml.writtenRecord p.entries)) = .ok p := by
  have hrecord : Yaml.Record.ofText (String.ofList (Yaml.writtenRecord p.entries)) =
      .ok (Yaml.recordOf p.entries) :=
    Yaml.ofText_written (List.cons_ne_nil _ _) p.isName_of_mem_entries
  have hname : (Yaml.recordOf p.entries).text "name" = .ok p.name :=
    Yaml.text_recordOf p.nodup_entries (List.mem_cons_self ..)
  simp only [ofYaml, hrecord, hname, text_entries, bind, Except.bind]
  rfl

/-- **A preset that is written is read back**, whatever its name and its scripts hold. -/
theorem ofYaml_toYaml (p : Preset) : Preset.ofYaml p.toYaml = .ok p := by
  rw [toYaml_eq]
  exact p.ofYaml_entries

end Preset

/-! ### Files -/

/-- A file that is written is there, with its content. -/
theorem FileTree.lookup_write {content : ByteArray} {path : List String} {t t' : FileTree}
    (h : t.write content path = .ok t') : t'.lookup path = .ok (.file content) := by
  have hput (name : String) (child : FileTree) (entries : List (String × FileTree)) :
      (putEntry name child entries).lookup name = some child := by
    simp [putEntry]
  -- along the path; only the last step writes
  induction path generalizing t t' with
  | nil =>
    match t with
    | .file _ =>
      obtain rfl := Except.ok.inj h
      rfl
  | cons name path ih =>
    match t with
    | .directory entries =>
      rw [write] at h
      cases hchild : entries.lookup name with
      | none =>
        rw [hchild] at h
        by_cases hpath : path = []
        · subst hpath
          obtain rfl := Except.ok.inj h
          simp [FileTree.lookup, hput]
        · simp [hpath, bind, Except.bind] at h
      | some child =>
        simp only [hchild] at h
        cases hwrite : child.write content path with
        | error fault => simp [hwrite, bind, Except.bind] at h
        | ok written =>
          simp only [hwrite, bind, Except.bind] at h
          obtain rfl := Except.ok.inj h
          simp [FileTree.lookup, hput, ih hwrite]

/-- What is written to a file is read from it. -/
theorem FileTree.read_write {content : ByteArray} {path : List String} {t t' : FileTree}
    (h : t.write content path = .ok t') : t'.read path = .ok content := by
  rw [FileTree.read, FileTree.lookup_write h]
  rfl

/-- The bytes of a preset's text are read as the preset. -/
theorem Preset.ofBytes_toUTF8 (p : Preset) : Preset.ofBytes p.toYaml.toUTF8 = .ok p := by
  have htext : String.fromUTF8? p.toYaml.toUTF8 = some p.toYaml := dif_pos p.toYaml.isValidUTF8
  rw [Preset.ofBytes, htext, toYaml_eq]
  simp only [ofYaml_entries]
  rfl

/-- **A preset that is saved is loaded**, if nothing prevented saving it. -/
theorem Preset.load_save {p : Preset} {tree tree' : FileTree} {path : List String}
    (h : p.save tree path = (none, tree')) : Preset.load tree' path = .ok p := by
  unfold Preset.save at h
  cases hprepared : tree.createDirectories path.dropLast with
  | error fault => simp [hprepared] at h
  | ok prepared =>
    simp only [hprepared] at h
    cases hwritten : prepared.write p.toYaml.toUTF8 path with
    | error fault =>
      simp only [hwritten] at h
      cases h
    | ok written =>
      simp only [hwritten, Prod.mk.injEq, true_and] at h
      rw [Preset.load, ← h, FileTree.read_write hwritten]
      exact p.ofBytes_toUTF8

end PointScope
