/-
Settings from their snapshot.

The settings as they are shown can be taken for a settings file. Every value in them has been checked and
brought into one form, so that reading them again should give the same settings. For suffixes, patterns
and switches it does: lower case is its own lower case, and the others are kept as they are. A directory is
read by taking off the blanks around it first, and the empty names and single dots in it afterwards, so a
blank that a dot and a slash stand before is left at the beginning of the directory. That is taken off when
the directory is read again, which is then another one, or none at all.

`configure_snapshot_iff` tells that this is all that can go wrong with the values, and that the directory of
the project's own records is found again wherever its absolute form is.
-/
import Provenance.Proofs.ArtifactPath
import Provenance.Proofs.Disk.Resolved
import Provenance.Proofs.Settings
import Provenance.Proofs.SourceSet.Requests
import Provenance.Proofs.Text.Lower

set_option autoImplicit false

namespace Provenance.Settings

open Action

variable {d : Disk} {root : Path} {file : Fields} {o : Overrides} {s c : Settings} {field : Text}
  {raw t : Text} {raws ts : List Text}

/-! ## Configuring -/

/-- The settings that a settings file and the overrides make of the defaults, with the absolute form of the
directory of the project's own records. -/
def configure (d : Disk) (base : Settings) (file : Fields) (o : Overrides) : Except Cause Settings := do
  let merged ← (merge base file o).mapError .settings
  let dataDir ← d.absolute merged.dataDir
  return { merged with dataDir := dataDir }

/-- Loading is to configure what is read from the project root. -/
theorem load_eq (d : Disk) (projectRoot : Path) (o : Overrides) :
    load d projectRoot o = (d.absolute projectRoot >>= fun directory => d.absolute directory >>= fun root =>
      readFile d directory >>= fun file => configure d (default root) file o) := rfl

/-- The settings as they are shown, as the fields of a settings file. -/
def snapshot (s : Settings) : Fields :=
  match s.toJson with
  | .obj fields => fields
  | _ => []

/-- Overrides that give the directory of the project's own records and nothing else. -/
def recordsAt (p : Path) : Overrides := { Overrides.none with dataDir := some p }

/-! ## Values that are read again -/

/-- A directory as it is kept once it has been read. -/
structure IsRead (t : Text) : Prop where
  directory : IsDirectory t
  noBackslash : '\\' ∉ t

theorem isRead_of_directoryOfText (h : directoryOfText field raw = .ok t) : IsRead t := by
  refine ⟨isDirectory_of_directoryOfText h, fun hmem => ?_⟩
  obtain ⟨names, rfl, -, -, rfl⟩ := of_directoryOfText h
  have hsub := ((Path.join_namesIn_sublist _).trans (Text.trim_sublist _)).subset hmem
  exact Text.not_mem_replaceChar (by decide) raw hsub

theorem DirFrom.isRead {before dir : Text} (h : DirFrom before dir) (hb : IsRead before) : IsRead dir := by
  rcases h with rfl | ⟨field, raw, hread⟩
  · exact hb
  · exact isRead_of_directoryOfText hread

/-- A directory that has been read is read as itself exactly if there are no blanks around it. -/
theorem IsRead.directoryOfText_iff (h : IsRead t) (field : Text) :
    directoryOfText field t = .ok t ↔ t.trim = t := by
  have hclean : (t.replaceChar '\\' '/').trim = t.trim := by
    rw [Text.replaceChar_of_not_mem h.noBackslash]
  obtain ⟨names, hne, hnames, rfl⟩ := h.directory
  have hpieces : ∀ n ∈ names, Path.IsPiece n := fun n hn => (hnames n hn).1
  constructor
  · intro hread
    obtain ⟨again, hagain, -, hnames', htext⟩ := of_directoryOfText hread
    -- the same text is that of the same names, so nothing was taken off
    obtain rfl : names = again := Path.join_injective hpieces (fun n hn => (hnames' n hn).1) htext
    rw [hclean] at hagain
    exact Artifact.trim_join_of_namesIn hagain.symm
  · intro htrim
    have hslash : (Text.join ['/'] names).startsWith ['/'] = false :=
      (Path.anchorOf_eq_here_iff _).mp (Path.anchorOf_join hpieces)
    have hsome : names.isEmpty = false := List.isEmpty_eq_false_iff.mpr hne
    have hup : names.contains Path.upName = false := by
      rw [← Bool.not_eq_true, List.contains_iff_mem]
      exact fun hmem => (hnames _ hmem).2 rfl
    unfold directoryOfText
    simp only [hclean, htrim, hslash, Path.namesIn_join hpieces, hsome, hup, Bool.false_eq_true, if_false]

theorem directories_eq_iff (field : Text) (ts : List Text) :
    directories field ts = .ok ts ↔ ∀ t ∈ ts, directoryOfText field t = .ok t := by
  induction ts with
  | nil => simp [directories]
  | cons t ts ih =>
    rw [directories, List.forall_mem_cons, ← ih]
    rcases directoryOfText field t with e | t'
    · simp
    · rcases directories field ts with e | ts'
      · simp [Except.map]
      · simp [Except.map]

theorem texts_ofTexts (field : Text) (ts : List Text) : texts field (.ofTexts ts) = .ok ts := by
  rw [Json.ofTexts, texts]
  induction ts with
  | nil => rfl
  | cons t ts ih => rw [List.map_cons, onlyTexts, ih]; rfl

/-- Suffixes that have been read are read as themselves. -/
theorem suffixes_suffixes (h : suffixes field raws = .ok ts) (field' : Text) :
    suffixes field' ts = .ok ts := by
  induction raws generalizing ts with
  | nil =>
    obtain rfl := Except.ok.inj h
    rfl
  | cons raw raws ih =>
    rw [suffixes] at h
    split at h
    swap
    · simp at h
    rename_i hform
    rcases hrest : suffixes field raws with e | rest
    · simp [hrest, Except.map] at h
    rw [hrest] at h
    obtain rfl := Except.ok.inj h
    obtain ⟨hdot, hlength⟩ := Bool.and_eq_true_iff.mp hform
    -- lower case keeps the dot and is no shorter
    have hdot' : raw.lower.startsWith ['.'] = true := by
      obtain ⟨more, rfl⟩ := List.isPrefixOf_iff_prefix.mp hdot
      exact List.isPrefixOf_iff_prefix.mpr ⟨lowerAfter ['.'] more, rfl⟩
    have hlength' : 2 ≤ raw.lower.length :=
      Nat.le_trans (of_decide_eq_true hlength) (length_le_lowerAfter [] raw)
    rw [suffixes, hdot', decide_eq_true hlength', ih hrest, Text.lower_lower]
    rfl

/-! ## The values of merged settings -/

theorem isRead_of_directories (h : directories field raws = .ok ts) : ∀ t ∈ ts, IsRead t :=
  fun t ht =>
    let ⟨_, hread⟩ := exists_directoryOfText h t ht
    isRead_of_directoryOfText hread

/-- Source directories have been read, and suffixes are read as themselves, if they were so before. -/
theorem mergeSources_isRead {base merged : SourceSettings} {table : Fields}
    (h : mergeSources base table = .ok merged) (hroots : ∀ dir ∈ base.roots, IsRead dir)
    (hsuffixes : ∀ field, suffixes field base.extensions = .ok base.extensions) :
    (∀ dir ∈ merged.roots, IsRead dir)
      ∧ ∀ field, suffixes field merged.extensions = .ok merged.extensions := by
  rw [mergeSources_eq] at h
  obtain ⟨roots, hreadRoots, h⟩ := except_bind_ok_iff.mp h
  obtain ⟨extensions, hreadSuffixes, h⟩ := except_bind_ok_iff.mp h
  obtain ⟨excludes, -, h⟩ := except_bind_ok_iff.mp h
  obtain rfl := Except.ok.inj h
  constructor
  · show ∀ dir ∈ roots, IsRead dir
    split at hreadRoots
    · exact Except.ok.inj hreadRoots ▸ hroots
    · obtain ⟨raws, -, hreadRoots⟩ := except_bind_ok_iff.mp hreadRoots
      exact isRead_of_directories hreadRoots
  · show ∀ field, suffixes field extensions = .ok extensions
    split at hreadSuffixes
    · exact Except.ok.inj hreadSuffixes ▸ hsuffixes
    · obtain ⟨raws, -, hreadSuffixes⟩ := except_bind_ok_iff.mp hreadSuffixes
      exact suffixes_suffixes hreadSuffixes

/-- The directories of merged settings have been read, and the suffixes are read as themselves. -/
theorem merge_isRead (h : merge (default root) file o = .ok s) : IsRead s.output.dir
    ∧ (∀ dir ∈ s.sources.roots, IsRead dir)
    ∧ ∀ field, suffixes field s.sources.extensions = .ok s.sources.extensions := by
  have hdefault : '\\' ∉ "bin/kotlin".toList := by decide
  refine ⟨(merge_from h).2.isRead ⟨isDirectory_default root, hdefault⟩, ?_⟩
  obtain ⟨table, hmerge⟩ := merge_sources h
  refine mergeSources_isRead hmerge (fun dir hdir => ?_) fun field => rfl
  obtain rfl := List.mem_singleton.mp hdir
  exact ⟨⟨["src".toList], by decide, by decide, rfl⟩, by decide⟩

/-! ## Configuring again -/

/-- The source settings as they are shown are read value by value, over any others. -/
theorem mergeSources_shown (base s : SourceSettings) :
    mergeSources base
      [Json.field "roots" (.ofTexts s.roots), Json.field "include_extensions" (.ofTexts s.extensions),
        Json.field "exclude_globs" (.ofTexts s.excludes)]
      = (directories "sources.roots".toList s.roots >>= fun roots =>
        suffixes "sources.include_extensions".toList s.extensions >>= fun extensions =>
        .ok ⟨roots, extensions, s.excludes⟩) := by
  have hfields : mergeSources base
      [Json.field "roots" (.ofTexts s.roots), Json.field "include_extensions" (.ofTexts s.extensions),
        Json.field "exclude_globs" (.ofTexts s.excludes)]
      = ((texts "sources.roots".toList (.ofTexts s.roots) >>= directories "sources.roots".toList)
          >>= fun roots =>
        (texts "sources.include_extensions".toList (.ofTexts s.extensions)
          >>= suffixes "sources.include_extensions".toList) >>= fun extensions =>
        texts "sources.exclude_globs".toList (.ofTexts s.excludes) >>= fun excludes =>
        .ok ⟨roots, extensions, excludes⟩) := mergeSources_eq ..
  rw [hfields, texts_ofTexts, texts_ofTexts, texts_ofTexts]
  rfl

/-- What a snapshot says is read value by value; of the overrides there is only the directory of the
project's own records. -/
theorem merge_snapshot (root : Path) (s : Settings) (p : Path) :
    merge (default root) s.snapshot (recordsAt p)
      = (directoryOfText "output.dir".toList s.output.dir >>= fun dir =>
        directories "sources.roots".toList s.sources.roots >>= fun roots =>
        suffixes "sources.include_extensions".toList s.sources.extensions >>= fun extensions =>
        .ok
          { projectRoot := root
            dataDir := p
            output := ⟨dir, s.output.prune⟩
            sources := ⟨roots, extensions, s.sources.excludes⟩
            audit := s.audit }) := by
  have hok : ∀ {α β : Type} (a : α) (f : α → Except Refusal β), (Except.ok a >>= f) = f a :=
    fun _ _ => rfl
  have houtput : sectionOf s.snapshot "output"
      = .ok [Json.field "dir" (.str s.output.dir), Json.field "prune_empty_dirs" (.bool s.output.prune)] := rfl
  have hsources : sectionOf s.snapshot "sources"
      = .ok [Json.field "roots" (.ofTexts s.sources.roots),
        Json.field "include_extensions" (.ofTexts s.sources.extensions),
        Json.field "exclude_globs" (.ofTexts s.sources.excludes)] := rfl
  have haudit : sectionOf s.snapshot "audit" = .ok [Json.field "enabled" (.bool s.audit)] := rfl
  have hmergeOutput : mergeOutput (default root).output
      [Json.field "dir" (.str s.output.dir), Json.field "prune_empty_dirs" (.bool s.output.prune)]
      = (directoryOfText "output.dir".toList s.output.dir >>= fun dir => .ok ⟨dir, s.output.prune⟩) := rfl
  unfold merge mergeFile
  simp only [houtput, hsources, haudit, hmergeOutput, mergeSources_shown, hok, bind_assoc]
  rfl

/-- Merged settings are had again from their snapshot, wherever the project's own records are put, exactly
if there are no blanks around their directories. -/
theorem merge_snapshot_iff (h : merge (default root) file o = .ok s) (p : Path) :
    merge (default root) { s with dataDir := p }.snapshot (recordsAt p) = .ok { s with dataDir := p }
      ↔ s.output.dir.trim = s.output.dir ∧ ∀ dir ∈ s.sources.roots, dir.trim = dir := by
  obtain ⟨hdir, hroots, hsuffixes⟩ := merge_isRead h
  have hread : (∀ dir ∈ s.sources.roots, dir.trim = dir)
      ↔ directories "sources.roots".toList s.sources.roots = .ok s.sources.roots := by
    rw [directories_eq_iff]
    exact forall₂_congr fun dir hmem => ((hroots dir hmem).directoryOfText_iff _).symm
  -- suffixes, patterns and switches are read as they are, so that it is for the directories to decide
  rw [merge_snapshot, hread, ← hdir.directoryOfText_iff "output.dir".toList]
  dsimp only
  rw [hsuffixes]
  constructor
  · intro hagain
    obtain ⟨dir, hdir', hagain⟩ := except_bind_ok_iff.mp hagain
    obtain ⟨roots, hroots', hagain⟩ := except_bind_ok_iff.mp hagain
    obtain ⟨-, -, houtput, hsources, -⟩ := Settings.mk.inj (Except.ok.inj hagain)
    rw [hdir', hroots', ← houtput, ← hsources]
    exact ⟨rfl, rfl⟩
  · rintro ⟨hdir', hroots'⟩
    rw [hdir', hroots', ← (merge_from h).1]
    rfl

/-- Settings that have been configured are had again from their snapshot, with the directory of the
project's own records for the only override, exactly if there are no blanks around their directories and the
directory of the records is its own absolute form. It is if it was given by an absolute path, as it is unless
it is overridden, on whose way no link is met again on its own way. -/
theorem configure_snapshot_iff (h : configure d (default root) file o = .ok c) :
    c.toJson = .obj c.snapshot
      ∧ (configure d (default root) c.snapshot (recordsAt c.dataDir) = .ok c
        ↔ (c.output.dir.trim = c.output.dir ∧ ∀ dir ∈ c.sources.roots, dir.trim = dir)
          ∧ d.absolute c.dataDir = .ok c.dataDir)
      ∧ ((o.dataDir.getD (default root).dataDir).isAbsolute = true →
        d.Unlooped (o.dataDir.getD (default root).dataDir) → d.absolute c.dataDir = .ok c.dataDir)
      ∧ (∀ field, suffixes field c.sources.extensions = .ok c.sources.extensions)
      ∧ ∀ field, ∀ dir ∈ c.output.dir :: c.sources.roots,
        directoryOfText field dir = .ok dir ↔ dir.trim = dir := by
  obtain ⟨merged, hmerge, h⟩ := except_bind_ok_iff.mp h
  obtain ⟨dataDir, hdata, h⟩ := except_bind_ok_iff.mp h
  obtain rfl := Except.ok.inj h
  have hmerge := except_mapError_ok_iff.mp hmerge
  obtain ⟨hdir, hroots, hsuffixes⟩ := merge_isRead hmerge
  refine ⟨rfl, ?_, fun habsolute hsound => ?_, hsuffixes, fun field dir hmem => ?_⟩
  · rw [← merge_snapshot_iff hmerge dataDir]
    constructor
    · intro hagain
      obtain ⟨again, hagain, hrest⟩ := except_bind_ok_iff.mp hagain
      obtain ⟨dataDir', hdata', hrest⟩ := except_bind_ok_iff.mp hrest
      have hagain := except_mapError_ok_iff.mp hagain
      -- reading again keeps the directory of the records that it is given
      have hgiven : again.dataDir = dataDir := by
        obtain ⟨filed, -, hover⟩ := except_bind_ok_iff.mp hagain
        exact (mergeOverrides_from hover).2.1
      have hsame := Except.ok.inj hrest
      have hdataDir : dataDir' = dataDir := congrArg Settings.dataDir hsame
      rw [hgiven, hdataDir] at hdata'
      refine ⟨hagain.trans (congrArg Except.ok ?_), hdata'⟩
      rw [← hsame, hdataDir, ← hgiven]
    · rintro ⟨hagain, hdata'⟩
      unfold configure
      rw [hagain]
      show (d.absolute dataDir >>= _) = _
      rw [hdata']
      rfl
  · obtain ⟨filed, hfile, hover⟩ := except_bind_ok_iff.mp hmerge
    have hgiven : merged.dataDir = o.dataDir.getD (default root).dataDir := by
      rw [(mergeOverrides_from hover).2.1, (mergeFile_from hfile).2.1]
    rw [hgiven] at hdata
    exact Disk.absolute_absolute habsolute hsound hdata
  · have hread : IsRead dir := (List.mem_cons.mp hmem).elim (fun heq => heq ▸ hdir) (hroots dir)
    exact hread.directoryOfText_iff field

/-- A settings file with directories and a suffix that are not in the form in which they are kept. -/
def spelledFile : Fields :=
  [("output".toList, .obj [("dir".toList, .str " out\\kotlin/./ ".toList)]),
    ("sources".toList, .obj [("roots".toList, .arr [.str "src//main/".toList]),
      ("include_extensions".toList, .arr [.str ".KT".toList])])]

/-- The settings that it makes of the defaults. -/
def spelledSettings : Settings :=
  { Settings.default SourceSet.onlyRoot with
    output := ⟨"out/kotlin".toList, false⟩
    sources := ⟨["src/main".toList], [".kt".toList], ["**/.git/**".toList, "**/build/**".toList]⟩ }

theorem configure_snapshot_small :
    let d := SourceSet.onlyDisk "class A\n".toList 1
    configure d (default SourceSet.onlyRoot) spelledFile { Overrides.none with prune := .bool false }
        = .ok spelledSettings
      ∧ configure d (default SourceSet.onlyRoot) spelledSettings.snapshot
        (recordsAt spelledSettings.dataDir) = .ok spelledSettings := by
  intro d
  have h : configure d (default SourceSet.onlyRoot) spelledFile
      { Overrides.none with prune := .bool false } = .ok spelledSettings := by decide +kernel
  obtain ⟨-, hiff, hrecords, -⟩ := configure_snapshot_iff h
  refine ⟨h, hiff.mpr ⟨by decide +kernel, hrecords (by decide) (by decide +kernel)⟩⟩

/-- A dot and a slash hide a blank: the settings are accepted, and from their snapshot other settings are
had. -/
theorem not_configured_from_snapshot :
    let d := SourceSet.onlyDisk "class A\n".toList 1
    let file : Fields := [("output".toList, .obj [("dir".toList, .str "./ a".toList)])]
    let c := { Settings.default SourceSet.onlyRoot with output := ⟨" a".toList, true⟩ }
    configure d (default SourceSet.onlyRoot) file .none = .ok c
      ∧ configure d (default SourceSet.onlyRoot) c.snapshot (recordsAt c.dataDir)
        = .ok { c with output := ⟨"a".toList, true⟩ }
      ∧ configure d (default SourceSet.onlyRoot) c.snapshot (recordsAt c.dataDir) ≠ .ok c := by
  decide +kernel

end Provenance.Settings
