/-
An outline and the edit that it predicts.

An outline says of some files which artifacts their declarations would have, and an edit that
is told of these files, and binds their declarations in the same way, brings these artifacts
in. The two go about it apart from each other. An outline takes its files as the paths come,
one as often as it is named. An edit takes those it tracks in the order of their keys, each
once, and reads a file when it has made and touched the artifacts of the files before.

If no path is unknown, the outline is right about the edit: about what is recorded, and for
which sources how often. It is enough that no unit has been kept and the files have not been
discovered, as when a project has just been opened.
-/
import Provenance.Proofs.CommandLine.Outline
import Provenance.Proofs.Outline.Nesting
import Provenance.Proofs.Session.Affected
import Provenance.Proofs.Session.Refinement
import Provenance.Proofs.SourceSet.Discovery
import Provenance.Proofs.Update.Declared

set_option autoImplicit false

namespace Provenance.Session

open Action Host CommandLine Update

variable {s s' s'' : Session} {paths : List Text} {answer : Json} {b : Binding}
  {units : List Outline.SourceUnit} {f : TrackedFile} {fs : List TrackedFile} {t : SourceSet} {d : Disk}
  {l : Layout} {shown : List (Text × List Text)} {affected : List Affected} {keys : List Text}

/-! ## The files of an outline -/

theorem exists_of_forall₂ {α β : Type} {R : α → β → Prop} {xs : List α} {ys : List β} {x : α}
    (h : List.Forall₂ R xs ys) (hx : x ∈ xs) : ∃ y ∈ ys, R x y := by
  induction h with
  | nil => simp at hx
  | cons hxy _ ih =>
    rcases List.mem_cons.mp hx with rfl | hx
    · exact ⟨_, List.mem_cons_self .., hxy⟩
    · obtain ⟨y, hy, hR⟩ := ih hx
      exact ⟨y, List.mem_cons_of_mem _ hy, hR⟩

/-- A unit has the key of the file that it is the unit of. -/
theorem path_of_unitOn {u : Outline.SourceUnit} (h : SourceSet.unitOn d f = some u) : u.path = f.path := by
  unfold SourceSet.unitOn at h
  split at h
  swap
  · simp at h
  rename_i x e _
  rcases hfresh : SourceSet.freshUnit f e with er | unit
  · simp [hfresh, Except.toOption] at h
  rw [hfresh] at h
  obtain rfl : unit = u := Option.some.inj h
  unfold SourceSet.freshUnit at hfresh
  split at hfresh
  swap
  · simp at hfresh
  split at hfresh
  · rename_i hparse
    obtain rfl := Except.ok.inj hfresh
    exact Outline.path_of_parseUnit hparse
  · simp at hfresh

/-- What an outline of some files on a disk shows. -/
structure Outlined (t : SourceSet) (d : Disk) (l : Layout) (b : Binding) (fs : List TrackedFile)
    (shown : List (Text × List Text)) : Prop where
  place : ∀ f ∈ fs, f = t.trackedFile f.path
  tracked : ∀ f ∈ fs, ∃ keys, t.keysOn d = .ok keys ∧ f.path ∈ keys
  /-- each file is shown, -/
  file : ∀ f ∈ fs, ∃ sh ∈ shown, sh.1 = f.path
  /-- and whatever is shown is what one of the files has to show -/
  unit : ∀ sh ∈ shown, ∃ f ∈ fs, sh.1 = f.path
    ∧ ∃ u, SourceSet.unitOn d f = some u ∧ Shows l b u sh

/-- An outline shows the files that its paths lead to, if it does not show a path to be unknown. -/
theorem outlined_of_units (hunits : t.units = []) (hgives : List.Forall₂ (Gives t d) paths units)
    (hshows : List.Forall₂ (Shows l b) units shown) :
    Outlined t d l b (meant t (paths.map .spelled)) shown := by
  -- a file that a path gives has one unit, the one that it is read as
  have hread : ∀ {raw u}, Gives t d raw u → ∃ f keys, t.resolve? raw = some f
      ∧ t.keysOn d = .ok keys ∧ f.path ∈ keys ∧ f.path = u.path ∧ SourceSet.unitOn d f = some u := by
    rintro raw u ⟨f, keys, x, e, hf, hkeys, hmem, hstat, hthere⟩
    have hnone : t.fitting? f e = none := by rw [SourceSet.fitting?, SourceSet.kept?, hunits]; rfl
    rw [SourceSet.unitThere?, hnone] at hthere
    have hunit : SourceSet.unitOn d f = some u := by rw [SourceSet.unitOn, hstat]; exact hthere
    exact ⟨f, keys, hf, hkeys, hmem, (path_of_unitOn hunit).symm, hunit⟩
  have hmeant : ∀ f, f ∈ meant t (paths.map .spelled) ↔ ∃ raw ∈ paths, t.resolve? raw = some f := by
    intro f
    rw [meant, List.filterMap_map, List.mem_filterMap]
    rfl
  refine ⟨fun f hf => ?_, fun f hf => ?_, fun f hf => ?_, fun sh hsh => ?_⟩
  · obtain ⟨raw, -, hf⟩ := (hmeant f).mp hf
    exact (SourceSet.trackedFile_of_resolve? hf).1
  · obtain ⟨raw, hraw, hf⟩ := (hmeant f).mp hf
    obtain ⟨u, -, hu⟩ := exists_of_forall₂ hgives hraw
    obtain ⟨g, keys, hg, hkeys, hmem, -⟩ := hread hu
    obtain rfl := Option.some.inj (hf.symm.trans hg)
    exact ⟨keys, hkeys, hmem⟩
  · obtain ⟨raw, hraw, hf⟩ := (hmeant f).mp hf
    obtain ⟨u, hmem, hu⟩ := exists_of_forall₂ hgives hraw
    obtain ⟨g, keys, hg, -, -, hpath, -⟩ := hread hu
    obtain rfl := Option.some.inj (hf.symm.trans hg)
    obtain ⟨sh, hsh, hshows⟩ := exists_of_forall₂ hshows hmem
    exact ⟨sh, hsh, hshows.1.trans hpath.symm⟩
  · obtain ⟨u, hmem, hu⟩ := exists_of_forall₂ hshows.flip hsh
    obtain ⟨raw, hraw, hgive⟩ := exists_of_forall₂ hgives.flip hmem
    obtain ⟨f, keys, hf, -, -, hpath, hunit⟩ := hread hgive
    exact ⟨f, (hmeant f).mpr ⟨raw, hraw, hf⟩, hu.1.trans hpath.symm, u, hunit, hu⟩

/-- The keys of the artifacts that an outline shows for a file. -/
def artifactsShown (shown : List (Text × List Text)) (key : Text) : List Text :=
  (shown.lookup key).getD []

/-- What is shown for a file is what its unit has to show. -/
theorem Outlined.shows (h : Outlined t d l b fs shown) (hf : f ∈ fs) :
    ∃ u, SourceSet.unitOn d f = some u ∧ Shows l b u (f.path, artifactsShown shown f.path) := by
  obtain ⟨sh, hsh, hpath⟩ := h.file f hf
  obtain ⟨ks, hks⟩ : ∃ ks, shown.lookup f.path = some ks := by
    rw [← Option.isSome_iff_exists, List.lookup_isSome_iff]
    exact ⟨sh, hsh, beq_iff_eq.mpr hpath.symm⟩
  obtain ⟨before, after, hsplit, -⟩ := List.lookup_eq_some_iff.mp hks
  obtain ⟨g, hg, hgpath, u, hunit, hshows⟩ := h.unit (f.path, ks) (by rw [hsplit]; simp)
  obtain rfl : f = g :=
    (h.place f hf).trans ((congrArg t.trackedFile hgpath).trans (h.place g hg).symm)
  refine ⟨u, hunit, ?_⟩
  rw [artifactsShown, hks]
  exact hshows

/-- The keys of the files that an outline shows, each once, in the order in which files are tracked. -/
def keysShown (shown : List (Text × List Text)) : List Text := sorted (distinct (shown.map Prod.fst))

/-- The build that an outline speaks of: the outputs of the files that it shows. -/
def buildShown (t : SourceSet) (d : Disk) (b : Binding) (shown : List (Text × List Text)) : Build :=
  (keysShown shown).flatMap fun key =>
    outputsOf (.ofBinding b) (t.trackedFile key) (SourceSet.unitOn d (t.trackedFile key))

theorem Outlined.mem_keysShown (h : Outlined t d l b fs shown) (key : Text) :
    key ∈ keysShown shown ↔ ∃ f ∈ fs, f.path = key := by
  rw [keysShown, mem_sorted, mem_distinct, List.mem_map]
  constructor
  · rintro ⟨sh, hsh, rfl⟩
    obtain ⟨f, hf, hpath, -⟩ := h.unit sh hsh
    exact ⟨f, hf, hpath.symm⟩
  · rintro ⟨f, hf, rfl⟩
    exact h.file f hf

theorem Outlined.shows_key (h : Outlined t d l b fs shown) {key : Text} (hkey : key ∈ keysShown shown) :
    ∃ u, SourceSet.unitOn d (t.trackedFile key) = some u
      ∧ Shows l b u (key, artifactsShown shown key) := by
  obtain ⟨f, hf, rfl⟩ := (h.mem_keysShown key).mp hkey
  rw [← h.place f hf]
  exact h.shows hf

/-- An outline shows the keys of the build that it speaks of. -/
theorem Outlined.mem_keysIn (h : Outlined t d l b fs shown) (k : Text) :
    k ∈ l.keysIn (buildShown t d b shown) ↔ ∃ sh ∈ shown, k ∈ sh.2 := by
  rw [buildShown, Layout.keysIn_flatMap, List.mem_flatMap]
  constructor
  · rintro ⟨key, hkey, hk⟩
    obtain ⟨u, hunit, hshows⟩ := h.shows_key hkey
    rw [hunit, hshows.keysIn] at hk
    rw [keysShown, mem_sorted, mem_distinct, List.mem_map] at hkey
    obtain ⟨sh, hsh, rfl⟩ := hkey
    obtain ⟨g, hg, hpath, v, hunit', hshows'⟩ := h.unit sh hsh
    rw [hpath, ← h.place g hg, hunit'] at hunit
    obtain rfl := Option.some.inj hunit
    exact ⟨sh, hsh, by rw [hshows'.unique hshows]; exact hk⟩
  · rintro ⟨sh, hsh, hk⟩
    obtain ⟨f, hf, hpath, u, hunit, hshows⟩ := h.unit sh hsh
    refine ⟨f.path, (h.mem_keysShown _).mpr ⟨f, hf, rfl⟩, ?_⟩
    rw [← h.place f hf, hunit, hshows.keysIn]
    exact hk

/-- It shows an artifact of a file as often as the file is one of its sources. -/
theorem Outlined.sourcesIn (h : Outlined t d l b fs shown) (k : Text) :
    l.sourcesIn (buildShown t d b shown) k = (keysShown shown).flatMap fun key =>
      List.replicate ((artifactsShown shown key).count k) (t.trackedFile key).location := by
  rw [buildShown, Layout.sourcesIn_flatMap]
  refine List.flatMap_congr fun key hkey => ?_
  obtain ⟨u, hunit, hshows⟩ := h.shows_key hkey
  rw [hunit, hshows.sourcesIn]

/-! ## The edit -/

theorem Outlined.mem_keys (h : Outlined t d l b fs shown) (hkeys : t.keysOn d = .ok keys) (hf : f ∈ fs) :
    f.path ∈ keys := by
  obtain ⟨keys', hkeys', hmem⟩ := h.tracked f hf
  obtain rfl := Except.ok.inj (hkeys.symm.trans hkeys')
  exact hmem

/-- The files of an outline are tracked, so that at most what is tracked comes to be known when an edit
makes out that they are affected. -/
theorem Outlined.affectedKeys (h : Outlined s.project.sources s.host.disk l b fs shown)
    (hmeant : meant s.project.sources affected = fs) :
    (affectedKeys affected).runOn s = (.ok (keysOfAll fs), s)
      ∨ ∃ keys, s.project.sources.keysOn s.host.disk = .ok keys
        ∧ (affectedKeys affected).runOn s = (.ok (keysOfAll fs), s.tracking keys) := by
  rw [affectedKeys_eq, hmeant]
  rcases List.eq_nil_or_concat fs with rfl | ⟨fs', g, rfl⟩
  · exact .inl rfl
  rw [List.concat_eq_append] at h ⊢
  obtain ⟨keys, hkeys, -⟩ := h.tracked g (by simp)
  have hrun := trackAll_known (s := s.tracking keys) rfl
    fun f (hf : f ∈ fs' ++ [g]) => trip?_of_tracked (h.mem_keys hkeys hf)
  rw [foldl_joinKey_of_tracked fun f hf => h.mem_keys hkeys hf] at hrun
  exact .inr ⟨keys, hkeys, (trackAll_tracking hkeys (by simp)).trans hrun⟩

/-- The tracked files that an edit takes from those of an outline are these, in order. -/
theorem Outlined.picked (h : Outlined t d l b fs shown) (hkeys : t.keysOn d = .ok keys)
    (hnodup : keys.Nodup) :
    (((sorted keys).map t.trackedFile).filter fun f => (keysOfAll fs).contains f.path)
      = (keysShown shown).map t.trackedFile := by
  rw [List.filter_map]
  refine congrArg _ (filter_sorted hnodup (nodup_distinct _) fun key => ?_)
  have hshown := h.mem_keysShown key
  rw [keysShown, mem_sorted] at hshown
  have hkey : (keysOfAll fs).contains key = true ↔ ∃ f ∈ fs, f.path = key := by
    rw [List.contains_iff_mem, mem_keysOfAll]
  rw [hshown]
  refine ⟨fun hmem => ⟨?_, hkey.mpr hmem⟩, fun hmem => hkey.mp hmem.2⟩
  obtain ⟨f, hf, rfl⟩ := hmem
  exact h.mem_keys hkeys hf

theorem Outlined.unread (h : Outlined t d l b fs shown) (hkeys : t.keysOn d = .ok keys)
    (hroot : t.root.isAbsolute = true) (hunits : t.units = []) {host : Host} (hhost : host.disk = d)
    (hd : d.Legal) :
    Unread keys d ((keysShown shown).map t.trackedFile) ⟨host, t.knowing keys, .none⟩ := by
  subst hhost
  refine ⟨hd, hd, .refl _, rfl, fun f hf => ?_, fun f hf => ?_, fun f hf => ?_, fun f hf => ?_⟩
  all_goals obtain ⟨key, hkey, rfl⟩ := List.mem_map.mp hf
  · obtain ⟨g, hg, rfl⟩ := (h.mem_keysShown key).mp hkey
    show g.path ∈ keys
    exact h.mem_keys hkeys hg
  · show t.units.lookup key = none
    rw [hunits]
    rfl
  · exact Path.isAbsolute_join hroot
  · obtain ⟨u, hunit, -⟩ := h.shows_key hkey
    rw [hunit]
    rfl

/-- An edit that is told of the files of an outline notes the build that the outline speaks of. -/
theorem Outlined.pends (hs : s.Sound) (hroot : s.project.sources.root.Straight)
    (hfiles : s.project.sources.files = none) (hunits : s.project.sources.units = [])
    (h : Outlined s.project.sources s.host.disk s.project.layout b fs shown)
    (hmeant : meant s.project.sources affected = fs) {pending : Pending}
    (hp : (Call.edit (.ofBinding b) affected).Pends s pending s') :
    ∃ c, pending = c.pending
      ∧ Declared s.project.layout (buildShown s.project.sources s.host.disk b shown) c := by
  obtain ⟨found, s₁, started, hfound, hunder⟩ := hp
  obtain ⟨c, hsteps, rfl, -⟩ := underway_ok hunder
  obtain ⟨keys, hlook, hedits⟩ := editSteps_ok hsteps
  -- the edit begins with what is tracked known or not, and goes on from there in one way
  have hbegin : found = keysOfAll fs ∧ s.project.sources.keysOn s.host.disk = .ok keys
      ∧ ((((sorted keys).map s.project.sources.trackedFile).filter fun f => found.contains f.path).forM
          (editSource s.project.layout (.ofBinding b))).runOn
        ⟨s.begun.host, s.project.sources.knowing keys, .none⟩ = (.ok (), c) := by
    rcases h.affectedKeys hmeant with hrun | ⟨keys', hkeys', hrun⟩
    all_goals
      obtain ⟨heq, rfl⟩ := Prod.mk.inj (hrun.symm.trans hfound)
      obtain rfl := Except.ok.inj heq
    · exact ⟨rfl, hlook, hedits⟩
    · obtain rfl : keys' = keys := Except.ok.inj hlook
      exact ⟨rfl, hkeys', hedits⟩
  obtain ⟨rfl, hkeys, hedits⟩ := hbegin
  have hnodup : keys.Nodup := by
    rw [SourceSet.keysOn, hfiles] at hkeys
    exact SourceSet.nodup_discover hkeys
  rw [h.picked hkeys hnodup] at hedits
  have hunread := h.unread hkeys hroot.isAbsolute hunits (rfl : s.begun.host.disk = _) hs.disk
  have hshown : (((keysShown shown).map s.project.sources.trackedFile).map TrackedFile.path).Nodup := by
    rw [List.map_map]
    exact (List.map_id (keysShown shown)).symm ▸
      (perm_sortBy compare _).nodup_iff.mpr (nodup_distinct _)
  have hbuild : readBuild s.project.layout (.ofBinding b) _ _ = _ := hunread.readBuild hs.layout hshown
  have hstart : Declared s.project.layout [] ⟨s.begun.host, s.project.sources.knowing keys, .none⟩ :=
    ⟨rfl, fun k => by simp [Pending.none, Entries.keys]⟩
  have hnotes := hstart.run hedits
  rw [List.nil_append, hbuild, List.flatMap_map] at hnotes
  exact ⟨c, rfl, hnotes⟩

/-- An outline on a project of which no file has been discovered and no unit is kept, if it does not
show a path to be unknown, predicts the edit that is told of the same paths and binds what its units
declare: if the edit returns, what it has refreshed are the artifacts that the outline shows, and so
are the keys of what it has published. A source is recorded for an artifact as often as the outline
shows the artifact with the source, the sources in the order of their keys. -/
theorem outline_predicts (hs : Reachable s) (hfiles : s.project.sources.files = none)
    (hunits : s.project.sources.units = []) (houtline : (outline paths).runOn s = (.ok answer, s'))
    (hunknown : shownUnknown answer = []) :
    ∃ units b, (unitsOf paths).runOn s = (.ok (units, []), s') ∧ Binding.declared units [] = .ok b
      ∧ ∀ report s'', (Call.edit (.ofBinding b) (paths.map .spelled)).run.runOn s = (.ok report, s'') →
        (∀ k, k ∈ report.refreshed ↔ ∃ sh ∈ shownFiles answer, k ∈ sh.2)
        ∧ (∀ k, k ∈ s''.project.ledger.entries.keys ↔ ∃ sh ∈ shownFiles answer, k ∈ sh.2)
        ∧ ∀ k, s''.project.ledger.entries.sourcesOf k
          = (keysShown (shownFiles answer)).flatMap fun key =>
            List.replicate ((artifactsShown (shownFiles answer) key).count k)
              (s.project.sources.trackedFile key).location := by
  obtain ⟨units, b, hrun, hb, hshows⟩ := outline_ok houtline
  rw [hunknown] at hrun
  refine ⟨units, b, hrun, hb, fun report s'' hedit => ?_⟩
  -- the outline shows keys for the layout of the session as it found it
  have hsame := (respects_unitsOf stepwise_sameLedger (fun f => respects_onSources _) paths).of_run hrun
  have hgives := unitsOf_ok (.refl _ _) rfl hrun
  rw [hsame.layout] at hshows
  have houtlined := outlined_of_units hunits hgives hshows
  obtain ⟨pending, s₁, h, id, started, n, hpends, -, hreport, hw⟩ := Call.report_runs hedit
  obtain ⟨c, rfl, hnotes⟩ := houtlined.pends hs.sound hs.straight_root hfiles hunits rfl hpends
  -- what is published is the table of the build that the outline speaks of
  have hentries : s''.project.ledger.entries
      = s.project.layout.tableOf (buildShown s.project.sources s.host.disk b (shownFiles answer)) := by
    rw [project_writeDown hw, ← hnotes.entries]
    rfl
  have hkeys : ∀ k, k ∈ s''.project.ledger.entries.keys ↔ ∃ sh ∈ shownFiles answer, k ∈ sh.2 :=
    fun k => by rw [hentries, Layout.keys_tableOf, mem_distinct, houtlined.mem_keysIn]
  refine ⟨fun k => ?_, hkeys, fun k => ?_⟩
  · rw [← hkeys, hentries, ← hnotes.entries, hnotes.refreshed, Report.refreshed, mem_sorted,
      mem_distinct, List.mem_append, hreport]
    rfl
  · rw [hentries, Layout.sourcesOf_tableOf, houtlined.sourcesIn]

/-- Two spellings of the source of the small project. -/
def spelledTwice : List Text := ["src/A.kt".toList, "./src/B/../A.kt".toList]

/-- In the small project with two classes in its source an outline shows the source twice, and the edit
records it once for each class. -/
theorem outline_predicts_small : ∃ s answer s' units b report s'', small? twoClasses = some s
    ∧ s.project.sources.files = none ∧ s.project.sources.units = []
    ∧ (outline spelledTwice).runOn s = (.ok answer, s') ∧ shownUnknown answer = []
    ∧ shownFiles answer
      = List.replicate 2 ("src/A.kt".toList, ["bin/kotlin/a/A.class".toList, "bin/kotlin/a/B.class".toList])
    ∧ (unitsOf spelledTwice).runOn s = (.ok (units, []), s') ∧ Binding.declared units [] = .ok b
    ∧ (Call.edit (.ofBinding b) (spelledTwice.map .spelled)).run.runOn s = (.ok report, s'')
    ∧ (∀ k, k ∈ report.refreshed ↔ ∃ sh ∈ shownFiles answer, k ∈ sh.2)
    ∧ (∀ k, k ∈ s''.project.ledger.entries.keys ↔ ∃ sh ∈ shownFiles answer, k ∈ sh.2)
    ∧ ∀ k, s''.project.ledger.entries.sourcesOf k
      = (keysShown (shownFiles answer)).flatMap fun key =>
        List.replicate ((artifactsShown (shownFiles answer) key).count k)
          (s.project.sources.trackedFile key).location := by
  have hrun : ((small? twoClasses).map fun s => decide (
      s.project.sources.files = none ∧ s.project.sources.units = []
      ∧ Ends ((outline spelledTwice).runOn s)
        (fun answer _ => shownUnknown answer = [] ∧ shownFiles answer = List.replicate 2
          ("src/A.kt".toList, ["bin/kotlin/a/A.class".toList, "bin/kotlin/a/B.class".toList]))
        (fun _ _ => False)
      ∧ Ends ((unitsOf spelledTwice).runOn s)
        (fun found _ => ∀ b ∈ (Binding.declared found.1 []).toOption,
          Ends ((Call.edit (.ofBinding b) (spelledTwice.map .spelled)).run.runOn s)
            (fun _ _ => True) (fun _ _ => False))
        (fun _ _ => False))) = some true := by
    decide +kernel
  obtain ⟨s, hs, h⟩ := Option.map_eq_some_iff.mp hrun
  obtain ⟨hfiles, hunits, houtline, hedit⟩ := of_decide_eq_true h
  rcases hr : (outline spelledTwice).runOn s with ⟨f | answer, s'⟩
  · rw [hr] at houtline
    exact houtline.elim
  rw [hr] at houtline
  obtain ⟨units, b, hread, hb, hpredicts⟩ := outline_predicts
    (reachable_small (by decide +kernel) (by decide +kernel) hs) hfiles hunits hr houtline.1
  rw [hread] at hedit
  have hends := hedit b (by rw [hb]; rfl)
  rcases hr' : (Call.edit (.ofBinding b) (spelledTwice.map .spelled)).run.runOn s with ⟨f | report, s''⟩
  · rw [hr'] at hends
    exact hends.elim
  obtain ⟨hrefreshed, hkeys, hsources⟩ := hpredicts report s'' hr'
  exact ⟨s, answer, s', units, b, report, s'', hs, hfiles, hunits, hr, houtline.1, houtline.2, hread,
    hb, hr', hrefreshed, hkeys, hsources⟩

end Provenance.Session
