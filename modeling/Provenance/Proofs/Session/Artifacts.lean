/-
The keys of artifacts.

Three texts have a say in where an artifact is and what it is known by: the output directory of
the settings, the path that a build names the artifact by, and the spelling that a lookup is given.
Each is read on its own, with backslashes for slashes, and the first two without the blanks around
them. What is left of them are names, and of names none of the readings takes anything away. So
the key of an artifact is spelled by itself and by the path of the artifact, and a lookup by either
finds what was recorded for it.
-/
import Provenance.Proofs.Session.Lookup
import Provenance.Proofs.Session.Publication
import Provenance.Proofs.Spelling
import Provenance.Proofs.Update.Table

set_option autoImplicit false

namespace Provenance

/-! ## Names without backslashes -/

theorem Text.mem_of_mem_trim {c : Char} {t : Text} (h : c ∈ t.trim) : c ∈ t := by
  rw [Text.trim, Text.trimRight, Text.dropRightWhile, List.mem_reverse] at h
  exact (List.dropWhile_sublist _).subset (List.mem_reverse.mp ((List.dropWhile_sublist _).subset h))

namespace Path

/-- A name that an entry can have, without a backslash. -/
def IsClean (n : Text) : Prop := IsName n ∧ '\\' ∉ n

/-- The names of a text that is read with backslashes for slashes and without blanks around it. -/
theorem backslash_not_mem_trimmed {n raw : Text} (h : n ∈ namesIn (raw.replaceChar '\\' '/').trim) :
    '\\' ∉ n :=
  not_mem_of_mem_namesIn h fun hmem =>
    Text.not_mem_replaceChar (by decide) raw (Text.mem_of_mem_trim hmem)

end Path

namespace Settings

variable {root : Path} {file : Fields} {o : Overrides} {settings : Settings}

/-- The output directory is reached from the project root by names without backslashes. -/
theorem outputRoot_clean (h : merge (default root) file o = .ok settings) :
    ∃ names, names ≠ [] ∧ (∀ n ∈ names, Path.IsClean n) ∧ settings.outputRoot = root.descend names := by
  obtain ⟨hroot, hdir⟩ := merge_from h
  obtain ⟨names, hne, hclean, htext⟩ : ∃ names, names ≠ [] ∧ (∀ n ∈ names, Path.IsClean n)
      ∧ settings.output.dir = Text.join ['/'] names := by
    rcases hdir with hdefault | ⟨field, raw, hread⟩
    · exact ⟨["bin".toList, "kotlin".toList], by decide,
        fun n hn => ⟨by revert n; decide, by revert n; decide⟩, hdefault⟩
    · obtain ⟨names, rfl, hne, hnames, htext⟩ := of_directoryOfText hread
      exact ⟨_, hne, fun n hn => ⟨hnames n hn, Path.backslash_not_mem_trimmed hn⟩, htext⟩
  refine ⟨names, hne, hclean, ?_⟩
  rw [outputRoot, hroot, htext, Path.ofText_join fun n hn => (hclean n hn).1.1]
  rfl

end Settings

namespace Artifact

variable {root outputRoot p : Path} {raw k : Text}

/-- So is an artifact from the output directory. -/
theorem locate_clean (h : locate outputRoot raw = .ok p) :
    ∃ names, names ≠ [] ∧ (∀ n ∈ names, Path.IsClean n) ∧ p = outputRoot.descend names := by
  obtain ⟨names, hnames, rfl⟩ := descend_of_locate h
  obtain ⟨rfl, hne, hn⟩ := of_namesOf hnames
  exact ⟨_, hne, fun n hmem => ⟨hn n hmem, Path.backslash_not_mem_trimmed hmem⟩, rfl⟩

/-! ## Keys that are spelled by themselves -/

/-- What the key of an artifact is good for: the artifact is strictly below the output directory, is
reached from the project root by names without backslashes, and is spelled by its key and by the text of
its path. -/
structure KnownBy (k : Text) (root outputRoot p : Path) : Prop where
  below : p.Below outputRoot
  clean : ∃ names, (∀ n ∈ names, Path.IsClean n) ∧ p = root.descend names
  key : p.key root = .ok k
  spelled : Path.normalizeKey? root k = some k
  spelledInFull : Path.normalizeKey? root p.text = some k

/-- Whatever the settings, an artifact is known by its key, provided that there are no backslashes on the
way to the project root. -/
theorem knownBy_of_locate {file : Fields} {o : Overrides} {settings : Settings} (hroot : root.Normal)
    (hclean : '\\' ∉ root.text) (hmerge : Settings.merge (.default root) file o = .ok settings)
    (h : locate settings.outputRoot raw = .ok p) : ∃ k, KnownBy k root settings.outputRoot p := by
  obtain ⟨dirs, -, hdirs, hout⟩ := Settings.outputRoot_clean hmerge
  obtain ⟨rest, hrest, hclean_rest, heq⟩ := locate_clean h
  -- the names of the output directory and those of the artifact, one after the other
  have hp : p = root.descend (dirs ++ rest) := by rw [heq, hout, Path.descend_descend]
  have hne : dirs ++ rest ≠ [] := by simp [hrest]
  have hnames : ∀ n ∈ dirs ++ rest, Path.IsClean n := List.forall_mem_append.mpr ⟨hdirs, hclean_rest⟩
  have hpieces : ∀ n ∈ dirs ++ rest, Path.IsPiece n := fun n hn => (hnames n hn).1.1
  have hfixed := (hroot.descend fun n hn => (hnames n hn).1).byName
  -- neither the key nor the text has a backslash, as no name has one
  have hkey : '\\' ∉ Text.join ['/'] (dirs ++ rest) := by
    rw [← Path.text_here hne hpieces]
    exact Path.backslash_not_mem_text fun n hn => (hnames n hn).2
  have htext : '\\' ∉ (root.descend (dirs ++ rest)).text :=
    Path.backslash_not_mem_text (List.forall_mem_append.mpr
      ⟨fun n hn => hroot.not_mem_of_not_mem_text hclean hn, fun n hn => (hnames n hn).2⟩)
  refine ⟨Text.join ['/'] (dirs ++ rest), locate_below h, ⟨_, hnames, hp⟩, ?_, ?_, ?_⟩
  · rw [hp, Path.key_descend root hne hpieces]
  · exact Path.normalizeKey?_key hne hpieces hfixed hkey
  · rw [hp, Path.normalizeKey?_text hroot hne hpieces hfixed htext]

end Artifact

namespace Session

open Action Update

variable {s s' : Session} {build : Build} {affected : List Affected} {report : Report} {out : Output}
  {k raw : Text}

/-! ## What a rebuild records -/

/-- A rebuild that returns a report has recorded its build, in the layout of the project. -/
theorem entries_of_rebuild (hr : (Session.rebuild build affected).runOn s = (.ok report, s')) :
    s'.project.ledger.entries = s.project.layout.tableOf build
      ∧ s'.project.settings = s.project.settings := by
  obtain ⟨pending, s₁, h, cycleId, started, n, hp, -, -, hw⟩ :=
    Call.report_runs (c := .rebuild build affected) hr
  -- the journal is all that is written after the entries are published
  have hproject := project_writeDown hw
  have hsettings := hp.sameLedger.2.2.1
  -- the steps start from the session in which the affected files have been told
  obtain ⟨keys, s₀, started', hkeys, hunder⟩ := hp
  have hlayout := (Call.sameLedger_keys hkeys).layout
  obtain ⟨c, hsteps, rfl, rfl⟩ := underway_ok hunder
  have hnoted := noted_rebuildSteps (c := s₀.atStart) rfl hsteps
  rw [hproject]
  refine ⟨?_, hsettings⟩
  rw [← hlayout]
  exact hnoted.entries

/-- After a rebuild what is recorded for an artifact that the build names is one entry, and this is the
one that its key and the text of its path are looked up by. -/
theorem found_of_rebuild {p : Path}
    (hknown : Artifact.KnownBy k s.project.settings.projectRoot s.project.settings.outputRoot p)
    (hbelow : s.project.settings.outputRoot.Below s.project.settings.projectRoot) (hout : out ∈ build)
    (hlocate : Artifact.locate s.project.settings.outputRoot out.path = .ok p)
    (hr : (Session.rebuild build affected).runOn s = (.ok report, s')) :
    (∀ sources, (k, sources) ∈ s'.project.ledger.entries
        ↔ sources = build.sourcesAt s.project.settings.outputRoot p)
      ∧ ∀ spelling, spelling = k ∨ spelling = p.text →
        (lookup spelling).runOn s'
          = (unitsAt (build.sourcesAt s.project.settings.outputRoot p)).runOn s' := by
  obtain ⟨hentries, hsettings⟩ := entries_of_rebuild hr
  have hsources : s'.project.ledger.sourcesOf k
      = build.sourcesAt s.project.settings.outputRoot p := by
    rw [Ledger.sourcesOf, hentries, Layout.sourcesOf_tableOf]
    exact Layout.sourcesIn_eq hbelow hknown.below hknown.key
  refine ⟨fun sources => ?_, fun spelling hspelling => ?_⟩
  · rw [hentries]
    exact Layout.mem_tableOf_iff hbelow hout hlocate hknown.key
  · -- a lookup goes by what its spelling comes to, and both come to the key
    have hnormal : Path.normalizeKey? s'.project.settings.projectRoot spelling = some k := by
      rw [hsettings]
      rcases hspelling with rfl | rfl
      · exact hknown.spelled
      · exact hknown.spelledInFull
    rw [runOn_lookup, recorded, hnormal]
    dsimp only
    rw [hsources]

/-- Whatever the settings, an artifact that a build names is known by its key, and after the build has
been recorded the entry of the key is found by the key and by the path of the artifact. A backslash on
the way to the project root would be read for a slash by the second of these, and so there is none. -/
theorem artifact_found_as_recorded {root p : Path} {file : Fields} {o : Overrides}
    {settings : Settings} (hroot : root.Normal) (hclean : '\\' ∉ root.text)
    (hmerge : Settings.merge (.default root) file o = .ok settings)
    (hlocate : Artifact.locate settings.outputRoot raw = .ok p) :
    ∃ k, Artifact.KnownBy k root (root.join (.ofText settings.output.dir)) p
      ∧ ∀ s build affected report s', s.project.settings.projectRoot = root →
        s.project.settings.output.dir = settings.output.dir → raw ∈ build.map Output.path →
        (Session.rebuild build affected).runOn s = (.ok report, s') →
        (∀ sources, (k, sources) ∈ s'.project.ledger.entries
          ↔ sources = build.sourcesAt settings.outputRoot p)
        ∧ ∀ spelling, spelling = k ∨ spelling = p.text →
          (lookup spelling).runOn s'
            = (unitsAt (build.sourcesAt settings.outputRoot p)).runOn s' := by
  obtain ⟨names, hne, hnames, hdescend⟩ := Settings.outputRoot_clean hmerge
  have hbelow : settings.outputRoot.Below root := ⟨names, hne, fun n hn => (hnames n hn).1, hdescend⟩
  obtain ⟨k, hknown⟩ := Artifact.knownBy_of_locate hroot hclean hmerge hlocate
  have houtput : root.join (.ofText settings.output.dir) = settings.outputRoot := by
    rw [Settings.outputRoot, (Settings.merge_from hmerge).1]
  refine ⟨k, houtput ▸ hknown, ?_⟩
  rintro s build affected report s' rfl hdir hraw hr
  obtain ⟨out, hout, rfl⟩ := List.mem_map.mp hraw
  -- of the settings a session has, the artifacts depend on the output directory only
  have hsame : settings.outputRoot = s.project.settings.outputRoot := by
    rw [← houtput, ← hdir]
    rfl
  rw [hsame] at hbelow hknown hlocate ⊢
  exact found_of_rebuild hknown hbelow hout hlocate hr

/-- Settings whose output directory is spelled with a backslash and blanks. -/
def spaced : Overrides := { Overrides.none with outputDir := .str " out\\kotlin ".toList }

/-- A build of an artifact whose path is spelled with a dot and a backslash. -/
def spacedBuild : Build := [⟨"./a\\A.class".toList, [smallSource]⟩]

/-- However the two are spelled, the artifact is found by its key and by its path. -/
theorem artifact_found_small : ∃ settings s report s', smallRoot.Normal ∧ '\\' ∉ smallRoot.text
    ∧ Settings.merge (.default smallRoot) [] spaced = .ok settings
    ∧ Artifact.locate settings.outputRoot "./a\\A.class".toList
      = .ok (smallRoot.descend ["out".toList, "kotlin".toList, "a".toList, "A.class".toList])
    ∧ openOn smallRoot spaced (idle (smallTree [])) = some s
    ∧ s.project.settings.projectRoot = smallRoot
    ∧ s.project.settings.output.dir = settings.output.dir
    ∧ (Session.rebuild spacedBuild []).runOn s = (.ok report, s')
    ∧ ("out/kotlin/a/A.class".toList, [smallSource]) ∈ s'.project.ledger.entries
    ∧ ∀ spelling, spelling = "out/kotlin/a/A.class".toList ∨ spelling = "/p/out/kotlin/a/A.class".toList →
      (lookup spelling).runOn s' = (unitsAt [smallSource]).runOn s' := by
  have hnormal : smallRoot.Normal :=
    ⟨rfl, fun n hn => by obtain rfl := List.mem_singleton.mp hn; decide⟩
  have hclean : '\\' ∉ smallRoot.text := by decide
  have hrun : ((Settings.merge (.default smallRoot) [] spaced).toOption.bind fun settings =>
      (openOn smallRoot spaced (idle (smallTree []))).map fun s => decide (
        Artifact.locate settings.outputRoot "./a\\A.class".toList
          = .ok (smallRoot.descend ["out".toList, "kotlin".toList, "a".toList, "A.class".toList])
        ∧ s.project.settings.projectRoot = smallRoot
        ∧ s.project.settings.output.dir = settings.output.dir
        ∧ spacedBuild.sourcesAt settings.outputRoot
            (smallRoot.descend ["out".toList, "kotlin".toList, "a".toList, "A.class".toList])
          = [smallSource]
        ∧ Ends ((Session.rebuild spacedBuild []).runOn s) (fun _ _ => True) (fun _ _ => False)))
      = some true := by
    decide +kernel
  obtain ⟨settings, hmerge, hrun⟩ := Option.bind_eq_some_iff.mp hrun
  obtain ⟨s, hs, h⟩ := Option.map_eq_some_iff.mp hrun
  obtain ⟨hlocate, hroot, hdir, hsources, hend⟩ := of_decide_eq_true h
  have hmerge : Settings.merge (.default smallRoot) [] spaced = .ok settings := by
    revert hmerge
    cases Settings.merge (.default smallRoot) [] spaced <;> simp [Except.toOption]
  rcases hr : (Session.rebuild spacedBuild []).runOn s with ⟨f | report, s'⟩
  · rw [hr] at hend
    exact hend.elim
  obtain ⟨k, hknown, hfound⟩ := artifact_found_as_recorded hnormal hclean hmerge hlocate
  obtain ⟨hentry, hlookup⟩ := hfound s spacedBuild [] report s' hroot hdir (by decide) hr
  rw [hsources] at hlookup
  obtain rfl : "out/kotlin/a/A.class".toList = k :=
    Except.ok.inj ((show Path.key (smallRoot.descend _) smallRoot = _ by decide).symm.trans hknown.key)
  exact ⟨settings, s, report, s', hnormal, hclean, hmerge, hlocate, hs, hroot, hdir, hr,
    (hentry _).mpr hsources.symm, hlookup⟩

end Session

end Provenance
