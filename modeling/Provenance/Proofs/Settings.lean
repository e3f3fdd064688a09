/-
Loaded settings.

Whatever a settings file says, what is loaded from it puts the artifacts below
the project root: a directory that is rooted, that climbs, or that is the root
itself is refused, and what is left of it are names.
-/
import Provenance.Settings.File
import Provenance.Proofs.Action
import Provenance.Proofs.Disk.Absolute
import Provenance.Proofs.Update.Layout

set_option autoImplicit false

namespace Provenance

/-- Overrides that spell the directory they give. -/
def Overrides.Spelled (o : Overrides) : Prop := ∀ p, o.dataDir = some p → p.Spelled

namespace Settings

open Action

/-- The text of a directory below the project root. -/
def IsDirectory (t : Text) : Prop :=
  ∃ names, names ≠ [] ∧ (∀ n ∈ names, Path.IsName n) ∧ t = Text.join ['/'] names

/-- What is read as a directory are the names in a text, at least one, and none of them leads up. -/
theorem of_directoryOfText {field raw t : Text} (h : directoryOfText field raw = .ok t) :
    ∃ names, names = Path.namesIn (raw.replaceChar '\\' '/').trim ∧ names ≠ []
      ∧ (∀ n ∈ names, Path.IsName n) ∧ t = Text.join ['/'] names := by
  unfold directoryOfText at h
  dsimp only at h
  split at h
  · simp at h
  split at h
  · simp at h
  rename_i hne
  split at h
  · simp at h
  rename_i hup
  refine ⟨_, rfl, by simpa using hne, fun n hn => ⟨Path.isPiece_of_mem_namesIn hn, ?_⟩,
    (Except.ok.inj h).symm⟩
  rintro rfl
  exact hup (by simpa using hn)

theorem isDirectory_of_directoryOfText {field raw t : Text}
    (h : directoryOfText field raw = .ok t) : IsDirectory t := by
  obtain ⟨names, -, hne, hnames, htext⟩ := of_directoryOfText h
  exact ⟨names, hne, hnames, htext⟩

theorem isDirectory_default (root : Path) : IsDirectory (default root).output.dir :=
  ⟨["bin".toList, "kotlin".toList], by decide, by decide, rfl⟩

/-- A directory is the one from before, or was read from a text. -/
def DirFrom (before dir : Text) : Prop := dir = before ∨ ∃ field raw, directoryOfText field raw = .ok dir

theorem DirFrom.isDirectory {before dir : Text} (h : DirFrom before dir) (hb : IsDirectory before) :
    IsDirectory dir := by
  rcases h with rfl | ⟨field, raw, hread⟩
  · exact hb
  · exact isDirectory_of_directoryOfText hread

theorem dirFrom_of_directory {field before dir : Text} {v : Json} (h : directory field v = .ok dir) :
    DirFrom before dir := by
  cases v with
  | str raw => exact .inr ⟨field, raw, h⟩
  | _ => simp [directory] at h

theorem mergeOutput_dirFrom {base merged : OutputSettings} {table : Fields}
    (h : mergeOutput base table = .ok merged) : DirFrom base.dir merged.dir := by
  unfold mergeOutput at h
  -- the directory is the one from before if the table names none
  split at h
  · obtain ⟨dir, hdir, h⟩ := except_bind_ok_iff.mp h
    obtain ⟨prune, -, h⟩ := except_bind_ok_iff.mp h
    obtain rfl := Except.ok.inj h
    exact .inl (Except.ok.inj hdir).symm
  · obtain ⟨dir, hdir, h⟩ := except_bind_ok_iff.mp h
    obtain ⟨prune, -, h⟩ := except_bind_ok_iff.mp h
    obtain rfl := Except.ok.inj h
    exact dirFrom_of_directory hdir

/-- Each directory of a list that has been read has been read itself. -/
theorem exists_directoryOfText {field : Text} {raws dirs : List Text}
    (h : directories field raws = .ok dirs) :
    ∀ dir ∈ dirs, ∃ raw, directoryOfText field raw = .ok dir := by
  induction raws generalizing dirs with
  | nil =>
    obtain rfl := Except.ok.inj h
    simp
  | cons raw raws ih =>
    rw [directories] at h
    split at h
    · simp at h
    rename_i dir hdir
    rcases hrest : directories field raws with e | rest
    · simp [hrest, Except.map] at h
    rw [hrest] at h
    obtain rfl := Except.ok.inj h
    exact List.forall_mem_cons.mpr ⟨⟨raw, hdir⟩, ih hrest⟩

theorem isDirectory_of_directories {field : Text} {raws dirs : List Text}
    (h : directories field raws = .ok dirs) : ∀ dir ∈ dirs, IsDirectory dir := fun dir hdir =>
  let ⟨_, hread⟩ := exists_directoryOfText h dir hdir
  isDirectory_of_directoryOfText hread

/-- The source settings are read field by field, each kept if the table does not have it. -/
theorem mergeSources_eq (base : SourceSettings) (table : Fields) :
    mergeSources base table
      = ((match table.get? "roots".toList with
          | none => .ok base.roots
          | some value =>
            texts "sources.roots".toList value >>= directories "sources.roots".toList) >>= fun roots =>
        (match table.get? "include_extensions".toList with
          | none => .ok base.extensions
          | some value => texts "sources.include_extensions".toList value
              >>= suffixes "sources.include_extensions".toList) >>= fun extensions =>
        (match table.get? "exclude_globs".toList with
          | none => .ok base.excludes
          | some value => texts "sources.exclude_globs".toList value) >>= fun excludes =>
        .ok ⟨roots, extensions, excludes⟩) := by
  unfold mergeSources
  cases table.get? "roots".toList <;> cases table.get? "include_extensions".toList <;>
    cases table.get? "exclude_globs".toList <;> simp only [bind_assoc] <;> rfl

theorem mergeSources_roots {base merged : SourceSettings} {table : Fields}
    (h : mergeSources base table = .ok merged) (hb : ∀ dir ∈ base.roots, IsDirectory dir) :
    ∀ dir ∈ merged.roots, IsDirectory dir := by
  rw [mergeSources_eq] at h
  obtain ⟨roots, hroots, h⟩ := except_bind_ok_iff.mp h
  obtain ⟨extensions, -, h⟩ := except_bind_ok_iff.mp h
  obtain ⟨excludes, -, h⟩ := except_bind_ok_iff.mp h
  obtain rfl := Except.ok.inj h
  show ∀ dir ∈ roots, IsDirectory dir
  split at hroots
  · exact Except.ok.inj hroots ▸ hb
  · obtain ⟨raws, -, hroots⟩ := except_bind_ok_iff.mp hroots
    exact isDirectory_of_directories hroots

/-- Overrides have nothing to say of the sources. -/
theorem mergeOverrides_sources {base merged : Settings} {o : Overrides}
    (h : mergeOverrides base o = .ok merged) : merged.sources = base.sources := by
  unfold mergeOverrides at h
  split at h
  all_goals
    obtain ⟨dir, -, h⟩ := except_bind_ok_iff.mp h
    obtain ⟨prune, -, h⟩ := except_bind_ok_iff.mp h
    obtain ⟨audit, -, h⟩ := except_bind_ok_iff.mp h
    obtain rfl := Except.ok.inj h
    rfl

/-- The source settings of a project are those that a section of its settings file leads to. -/
theorem merge_sources {base : Settings} {file : Fields} {o : Overrides} {s : Settings}
    (h : merge base file o = .ok s) : ∃ table, mergeSources base.sources table = .ok s.sources := by
  obtain ⟨filed, hfile, hover⟩ := except_bind_ok_iff.mp h
  rw [mergeOverrides_sources hover]
  obtain ⟨outputTable, -, hfile⟩ := except_bind_ok_iff.mp hfile
  obtain ⟨sourcesTable, -, hfile⟩ := except_bind_ok_iff.mp hfile
  obtain ⟨auditTable, -, hfile⟩ := except_bind_ok_iff.mp hfile
  obtain ⟨output, -, hfile⟩ := except_bind_ok_iff.mp hfile
  obtain ⟨sources, hmerge, hfile⟩ := except_bind_ok_iff.mp hfile
  obtain ⟨audit, -, hfile⟩ := except_bind_ok_iff.mp hfile
  obtain rfl := Except.ok.inj hfile
  exact ⟨sourcesTable, hmerge⟩

/-- The sources of a project are in directories below it, whatever its settings file says. -/
theorem merge_roots {root : Path} {file : Fields} {o : Overrides} {s : Settings}
    (h : merge (default root) file o = .ok s) : ∀ dir ∈ s.sources.roots, IsDirectory dir := by
  obtain ⟨table, hmerge⟩ := merge_sources h
  refine mergeSources_roots hmerge fun dir hdir => ?_
  obtain rfl := List.mem_singleton.mp hdir
  exact ⟨["src".toList], by decide, by decide, rfl⟩

/-- A layer of settings keeps the project root, and leaves the artifacts in a directory below it. -/
def Extends (base merged : Settings) : Prop :=
  merged.projectRoot = base.projectRoot
    ∧ (IsDirectory base.output.dir → IsDirectory merged.output.dir)

theorem mergeFile_from {base merged : Settings} {file : Fields} (h : mergeFile base file = .ok merged) :
    merged.projectRoot = base.projectRoot ∧ merged.dataDir = base.dataDir
      ∧ DirFrom base.output.dir merged.output.dir := by
  obtain ⟨outputTable, -, h⟩ := except_bind_ok_iff.mp h
  obtain ⟨sourcesTable, -, h⟩ := except_bind_ok_iff.mp h
  obtain ⟨auditTable, -, h⟩ := except_bind_ok_iff.mp h
  obtain ⟨output, hout, h⟩ := except_bind_ok_iff.mp h
  obtain ⟨sources, -, h⟩ := except_bind_ok_iff.mp h
  obtain ⟨audit, -, h⟩ := except_bind_ok_iff.mp h
  obtain rfl := Except.ok.inj h
  exact ⟨rfl, rfl, mergeOutput_dirFrom hout⟩

theorem mergeFile_extends {base merged : Settings} {file : Fields}
    (h : mergeFile base file = .ok merged) : base.Extends merged ∧ merged.dataDir = base.dataDir := by
  obtain ⟨hroot, hdata, hdir⟩ := mergeFile_from h
  exact ⟨⟨hroot, hdir.isDirectory⟩, hdata⟩

theorem mergeOverrides_from {base merged : Settings} {o : Overrides}
    (h : mergeOverrides base o = .ok merged) :
    merged.projectRoot = base.projectRoot ∧ merged.dataDir = o.dataDir.getD base.dataDir
      ∧ DirFrom base.output.dir merged.output.dir := by
  unfold mergeOverrides at h
  split at h
  · obtain ⟨dir, hdir, h⟩ := except_bind_ok_iff.mp h
    obtain ⟨prune, -, h⟩ := except_bind_ok_iff.mp h
    obtain ⟨audit, -, h⟩ := except_bind_ok_iff.mp h
    obtain rfl := Except.ok.inj h
    exact ⟨rfl, rfl, .inl (Except.ok.inj hdir).symm⟩
  · obtain ⟨dir, hdir, h⟩ := except_bind_ok_iff.mp h
    obtain ⟨prune, -, h⟩ := except_bind_ok_iff.mp h
    obtain ⟨audit, -, h⟩ := except_bind_ok_iff.mp h
    obtain rfl := Except.ok.inj h
    exact ⟨rfl, rfl, dirFrom_of_directory hdir⟩

theorem mergeOverrides_extends {base merged : Settings} {o : Overrides}
    (h : mergeOverrides base o = .ok merged) :
    base.Extends merged ∧ merged.dataDir = o.dataDir.getD base.dataDir := by
  obtain ⟨hroot, hdata, hdir⟩ := mergeOverrides_from h
  exact ⟨⟨hroot, hdir.isDirectory⟩, hdata⟩

/-- Merged settings keep the project root, and the output directory is the default one or was read from
a text. -/
theorem merge_from {root : Path} {file : Fields} {o : Overrides} {s : Settings}
    (h : merge (default root) file o = .ok s) :
    s.projectRoot = root ∧ DirFrom (default root).output.dir s.output.dir := by
  obtain ⟨filed, hfile, hover⟩ := except_bind_ok_iff.mp h
  obtain ⟨hroot, -, hdir⟩ := mergeFile_from hfile
  obtain ⟨hroot', -, hdir'⟩ := mergeOverrides_from hover
  refine ⟨hroot'.trans hroot, ?_⟩
  rcases hdir' with heq | hread
  · exact heq ▸ hdir
  · exact .inr hread

/-- Loaded settings have a straight root, a directory for the artifacts below it, and a straight
directory for the project's own records. -/
theorem load_ok {d : Disk} {projectRoot : Path} {o : Overrides} {s : Settings} (hd : d.Legal)
    (hp : projectRoot.Spelled) (ho : o.Spelled) (h : load d projectRoot o = .ok s) :
    s.projectRoot.Straight ∧ IsDirectory s.output.dir ∧ s.dataDir.Straight := by
  obtain ⟨directory, hdir, h⟩ := except_bind_ok_iff.mp h
  obtain ⟨root, hroot, h⟩ := except_bind_ok_iff.mp h
  obtain ⟨file, -, h⟩ := except_bind_ok_iff.mp h
  obtain ⟨merged, hm, h⟩ := except_bind_ok_iff.mp h
  obtain ⟨dataDir, hdata, h⟩ := except_bind_ok_iff.mp h
  obtain rfl := Except.ok.inj h
  obtain ⟨filed, hfile, hover⟩ := except_bind_ok_iff.mp (except_mapError_ok_iff.mp hm)
  obtain ⟨⟨hroot₁, hdir₁⟩, hdata₁⟩ := mergeFile_extends hfile
  obtain ⟨⟨hroot₂, hdir₂⟩, hdata₂⟩ := mergeOverrides_extends hover
  -- the root is made absolute twice, and the second time it is straight already
  have hstraight : root.Straight :=
    Disk.straight_of_absolute hd (Disk.straight_of_absolute hd hp hdir).spelled hroot
  refine ⟨?_, hdir₂ (hdir₁ (isDirectory_default root)), ?_⟩
  · show merged.projectRoot.Straight
    rw [hroot₂, hroot₁]
    exact hstraight
  · refine Disk.straight_of_absolute hd ?_ hdata
    rw [hdata₂, hdata₁]
    -- without an override the records are beside the sources, in a directory of a fixed name
    cases hod : o.dataDir with
    | none => exact (hstraight.child (by decide)).spelled
    | some p => exact ho p hod

/-- The directory of the artifacts is below the project root. -/
theorem outputRoot_below {s : Settings} (h : IsDirectory s.output.dir) :
    s.outputRoot.Below s.projectRoot := by
  obtain ⟨names, hne, hn, heq⟩ := h
  refine ⟨names, hne, hn, ?_⟩
  rw [outputRoot, heq, Path.ofText_join fun n hmem => (hn n hmem).1]
  rfl

end Settings

end Provenance
