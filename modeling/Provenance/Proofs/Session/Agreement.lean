/-
When the output directory and the ledger agree.

After a call whose sweep has had no failures one would take the files below the output
directory to be those of the artifacts that have a source: the sweep has deleted all
others, and each artifact was made before it was recorded. They are, except in these
cases. What was in the way of an artifact when it was to be made may have been no
regular file, and the update takes whatever is there for the artifact. The output
directory may be found by way of a directory that the sweep removes. And the journal
may be a file below the output directory, which is made again after the sweep.

`agrees_iff` says that there are no other cases.
-/
import Provenance.Proofs.Session.Publication
import Provenance.Proofs.Update.Clearing
import Provenance.Proofs.Update.Presence

set_option autoImplicit false

namespace Provenance

/-! ## Files and keys -/

namespace Update

variable {l : Layout} {entries : Entries} {h h' : Host} {d d' : Disk} {key : Text} {path : Path}

/-- There is a file below the output directory with a key. -/
def Layout.Stands (l : Layout) (d : Disk) (key : Text) : Prop :=
  ∃ p, d.HoldsFile l.outputRoot p ∧ p.key l.projectRoot = .ok key

/-- What is at a path below the output directory is the file with its key exactly if it is a regular
file and no link leads to it from there. -/
theorem stands_iff_of_place (hs : l.Sound) (hd : d.Legal) {p : Path} (hp : p.Below l.outputRoot)
    (hkey : p.key l.projectRoot = .ok key) {x : Location} {e : Entry}
    (hpl : d.place false p = .ok (.present x e)) :
    l.Stands d key ↔ e.isFile = true ∧ ∃ loc e' names,
      d.place true l.outputRoot = .ok (.present loc e') ∧ p = l.outputRoot.descend names
        ∧ x = loc ++ names := by
  have habs := (hs.output.straight hs.root).isAbsolute
  have hfind := Disk.place_present (hs.straight hp).isAbsolute hpl
  constructor
  · rintro ⟨q, hholds, hkey'⟩
    obtain ⟨loc, e', names, hroot, -, hne, hn, hq, hfile⟩ := hholds.cases hd.tree
    have hsame : p = q := (hp.trans hs.output).eq_of_key
      (Path.Below.trans ⟨names, hne, hn, hq⟩ hs.output) (hkey.trans hkey'.symm)
    subst hsame
    have hdir : d.tree.isDirectory (loc ++ names.dropLast) = true := by
      apply hd.tree.isDirectory_of_below (m := [names.getLast hne]) (by simp)
      rw [List.append_assoc, List.dropLast_concat_getLast]
      exact Disk.isSome_of_isFile hfile
    rw [hq] at hpl
    have hx := Disk.place_descend hd.tree habs hroot hne (fun n hmem => (hn n hmem).2) hdir hpl
    refine ⟨?_, loc, e', names, hroot, hq, hx⟩
    rw [← hx, hfind] at hfile
    simpa using hfile
  · rintro ⟨hfile, loc, e', names, hroot, rfl, rfl⟩
    refine ⟨_, ⟨loc, e', names, hroot, ?_, rfl, by simpa [hfind] using hfile⟩, hkey⟩
    rintro rfl
    obtain ⟨ms, hne, -, heq⟩ := hp
    simp [Path.descend] at heq
    exact hne heq

/-- A line in a journal that is missing makes the file with a key. -/
def Layout.Starts (l : Layout) (journal : Option Path) (d : Disk) (key : Text) : Prop :=
  ∃ path p, journal = some path ∧ d.MakesFile path l.outputRoot p ∧ p.key l.projectRoot = .ok key

/-- A sweep without failures leaves the files whose keys have a source. -/
theorem stands_sweep (hs : l.Sound) (hd : h.disk.Legal) {swept : SweepResult}
    (hr : (sweep l entries).runOn h = (.ok swept, h')) (hclean : swept.failures = []) :
    l.Stands h'.disk key
      ↔ l.Stands h.disk key ∧ entries.sourcesOf key ≠ [] ∧ h'.disk.Leads l.outputRoot := by
  constructor
  · rintro ⟨p, hholds, hkey⟩
    obtain ⟨hbefore, ⟨key', hkey', hsource⟩, hleads⟩ := (sweep_ok hs hd hr hclean).mp hholds
    obtain rfl : key = key' := Except.ok.inj (hkey.symm.trans hkey')
    exact ⟨⟨p, hbefore, hkey⟩, hsource, hleads⟩
  · rintro ⟨⟨p, hholds, hkey⟩, hsource, hleads⟩
    exact ⟨p, (sweep_ok hs hd hr hclean).mpr ⟨hholds, ⟨key, hkey, hsource⟩, hleads⟩, hkey⟩

/-- A disk after a line has been written to the journal, if there is one. -/
def Written (journal : Option Path) (d d' : Disk) : Prop :=
  match journal with
  | none => d' = d
  | some path => ∃ bytes now, d.append path bytes now = .ok d'

/-- A line in the journal adds the file of a missing journal. -/
theorem stands_written (hs : l.Sound) (hd : d.Legal) {journal : Option Path}
    (hjournal : ∀ p, journal = some p → p.Straight) (hw : Written journal d d') :
    l.Stands d' key ↔ l.Stands d key ∨ l.Starts journal d key := by
  have habs := (hs.output.straight hs.root).isAbsolute
  cases journal with
  | none =>
    obtain rfl : d' = d := hw
    exact ⟨.inl, fun h => h.resolve_right fun ⟨_, _, hno, _⟩ => by simp at hno⟩
  | some path =>
    obtain ⟨bytes, now, hc⟩ := hw
    have hiff := fun p => Disk.holdsFile_append (p := p) hd habs (hjournal path rfl) hc
    constructor
    · rintro ⟨p, hholds, hkey⟩
      rcases (hiff p).mp hholds with hholds | hmakes
      · exact .inl ⟨p, hholds, hkey⟩
      · exact .inr ⟨path, p, rfl, hmakes, hkey⟩
    · rintro (⟨p, hholds, hkey⟩ | ⟨path', p, hp, hmakes, hkey⟩)
      · exact ⟨p, (hiff p).mpr (.inl hholds), hkey⟩
      · obtain rfl : path = path' := Option.some.inj hp
        exact ⟨p, (hiff p).mpr (.inr hmakes), hkey⟩

end Update

namespace Session

open Action Update

variable {c : Call} {s s' s₁ : Session} {pending : Pending} {report : Report}

/-! ## After a report -/

theorem writeDown_ok {e : Event} {u : Unit} (hr : (writeDown e).runOn s = (.ok u, s')) :
    Written s.project.journal s.host.disk s'.host.disk := by
  cases hj : s.project.journal with
  | none =>
    rw [writeDown_none hj] at hr
    obtain rfl : s = s' := (Prod.mk.inj hr).2
    rfl
  | some path =>
    rcases hc : s.host.disk.append path (Utf8.encode (e.line ++ ['\n'])) s.host.clock.now with er | d
    · simp [writeDown_of_error hj hc] at hr
    · rw [writeDown_of_ok hj hc] at hr
      obtain rfl := (Prod.mk.inj hr).2
      exact ⟨_, _, hc⟩

/-- A call that returns a report has come to publish, its sweep has succeeded, and what came after
that is a line in the journal. -/
theorem Call.report_ok (hr : c.run.runOn s = (.ok report, s')) :
    ∃ pending s₁ h, c.Pends s pending s₁ ∧ s₁.sweepAfter pending = (.ok report.sweep, h)
      ∧ s'.project.ledger.entries = pending.entries ∧ SameLedger s s₁
      ∧ s'.project.layout = s.project.layout ∧ Written s.project.journal h.disk s'.host.disk := by
  obtain ⟨pending, s₁, h, cycleId, started, n, hp, hsweep, -, hw⟩ := report_runs hr
  have hsame := hp.sameLedger
  have hkeep := respects_writeDown (eventOfReport n report) (({ s₁.published pending with
    host := { h with clock := h.clock.next.next } } : Session).reported c.operation report)
  rw [hw] at hkeep
  obtain ⟨hledger, -, hsettings, -⟩ := hkeep
  have hwritten : Written s₁.project.journal h.disk s'.host.disk := writeDown_ok hw
  rw [hsame.2.2.2] at hwritten
  refine ⟨pending, s₁, h, hp, hsweep, ?_, hsame, ?_, hwritten⟩
  · rw [hledger]
    rfl
  · rw [Project.layout, Project.layout, hsettings, ← hsame.2.2.1]
    rfl

/-! ## Agreement -/

/-- When a call comes to publish, something is at the path of each artifact that has a source. -/
theorem Call.Pends.occupied (hs : s.Sound) (hp : c.Pends s pending s₁) {key : Text}
    (hkey : pending.entries.sourcesOf key ≠ []) :
    s.project.layout.Occupied s₁.host.disk key := by
  obtain ⟨keys, s₂, started, hk, hu⟩ := hp
  obtain ⟨cycle, hsteps, rfl, rfl⟩ := underway_ok hu
  have hs₂ := hs.keys hk
  have hstart : Provided s₂.project.layout s₂.atStart := ⟨hs₂.disk, by simp [atStart, Pending.none,
    Entries.keys]⟩
  rw [← (sameLedger_keys hk).layout]
  have hprovided : Provided s₂.project.layout cycle := by
    cases c with
    | rebuild build affected => exact provided_rebuildSteps hs₂.layout hstart hsteps
    | edit resolve affected => exact provided_editSteps hs₂.layout hstart hsteps
  exact hprovided.2 key (Entries.mem_keys_of_sourcesOf hkey)

/-- The files below the output directory are those of the artifacts that have a source. -/
def Agrees (s : Session) : Prop :=
  ∀ key, s.project.layout.Stands s.host.disk key ↔ s.project.ledger.sourcesOf key ≠ []

/-- When a call whose sweep has no failures publishes, something is at the path of each artifact that
has a source. Afterwards the output directory and the ledger agree exactly if each of these artifacts
was a regular file by then and the output directory can still be found, or the artifact is the
journal, and if the journal is not made as some other file below the output directory. -/
theorem Call.agrees_iff (hs : Reachable s) (hr : c.run.runOn s = (.ok report, s'))
    (hclean : report.sweep.failures = []) :
    ∃ pending s₁ h, c.Pends s pending s₁ ∧ s₁.sweepAfter pending = (.ok report.sweep, h)
      ∧ (∀ key, pending.entries.sourcesOf key ≠ [] → s.project.layout.Occupied s₁.host.disk key)
      ∧ (s'.Agrees ↔
        (∀ key, pending.entries.sourcesOf key ≠ [] →
          (s.project.layout.Stands s₁.host.disk key ∧ h.disk.Leads s.project.layout.outputRoot)
            ∨ s.project.layout.Starts s.project.journal h.disk key)
        ∧ ∀ key, s.project.layout.Starts s.project.journal h.disk key →
          pending.entries.sourcesOf key ≠ []) := by
  obtain ⟨pending, s₁, h, hp, hsweep, hledger, hsame, hlayout, hwritten⟩ := report_ok hr
  have hsound := hs.sound
  refine ⟨pending, s₁, h, hp, hsweep, fun key => hp.occupied hsound, ?_⟩
  have hd₁ := (hsound.pends hp).disk
  have hswept : (sweep s.project.layout pending.entries).runOn s₁.host = (.ok report.sweep, h) := by
    rw [← hsame.layout]
    exact hsweep
  have hd : h.disk.Legal := (staysLegal_sweep s.project.layout pending.entries).of_run hswept hd₁
  have hiff : ∀ key, s'.project.layout.Stands s'.host.disk key
      ↔ (s.project.layout.Stands s₁.host.disk key ∧ pending.entries.sourcesOf key ≠ []
          ∧ h.disk.Leads s.project.layout.outputRoot)
        ∨ s.project.layout.Starts s.project.journal h.disk key := fun key => by
    rw [hlayout, stands_written hsound.layout hd hsound.journal hwritten,
      stands_sweep hsound.layout hd₁ hswept hclean]
  have hsources : ∀ key, s'.project.ledger.sourcesOf key = pending.entries.sourcesOf key :=
    fun key => by rw [Ledger.sourcesOf, hledger]
  constructor
  · intro hagrees
    refine ⟨fun key hkey => ?_, fun key hkey => ?_⟩
    · rw [← hsources] at hkey
      rcases (hiff key).mp ((hagrees key).mpr hkey) with ⟨hstands, -, hleads⟩ | hstarts
      · exact .inl ⟨hstands, hleads⟩
      · exact .inr hstarts
    · rw [← hsources]
      exact (hagrees key).mp ((hiff key).mpr (.inr hkey))
  · rintro ⟨hmade, hjournal⟩ key
    rw [hiff, hsources]
    constructor
    · rintro (⟨-, hsource, -⟩ | hstarts)
      · exact hsource
      · exact hjournal key hstarts
    · intro hsource
      rcases hmade key hsource with ⟨hstands, hleads⟩ | hstarts
      · exact .inl ⟨hstands, hsource, hleads⟩
      · exact .inr hstarts

/-- In the small project a rebuild of its artifact has no sweep failures, and what comes of that is as
it has to be. -/
theorem Call.agrees_small : ∃ s report s', small? [] = some s
    ∧ (Call.rebuild smallBuild []).run.runOn s = (.ok report, s') ∧ report.sweep.failures = []
    ∧ ∃ pending s₁ h, (Call.rebuild smallBuild []).Pends s pending s₁
      ∧ s₁.sweepAfter pending = (.ok report.sweep, h)
      ∧ (∀ key, pending.entries.sourcesOf key ≠ [] → s.project.layout.Occupied s₁.host.disk key)
      ∧ (s'.Agrees ↔
        (∀ key, pending.entries.sourcesOf key ≠ [] →
          (s.project.layout.Stands s₁.host.disk key ∧ h.disk.Leads s.project.layout.outputRoot)
            ∨ s.project.layout.Starts s.project.journal h.disk key)
        ∧ ∀ key, s.project.layout.Starts s.project.journal h.disk key →
          pending.entries.sourcesOf key ≠ []) := by
  have hrun : ((small? []).map fun s => decide (Ends ((Call.rebuild smallBuild []).run.runOn s)
      (fun report _ => report.sweep.failures = []) (fun _ _ => False))) = some true := by
    decide +kernel
  obtain ⟨s, hs, h⟩ := Option.map_eq_some_iff.mp hrun
  rcases hr : (Call.rebuild smallBuild []).run.runOn s with ⟨f | report, s'⟩
  · rw [hr] at h
    exact (of_decide_eq_true h).elim
  · rw [hr] at h
    have hclean : report.sweep.failures = [] := of_decide_eq_true h
    exact ⟨s, report, s', hs, hr, hclean,
      Call.agrees_iff (reachable_small (by decide +kernel) (by decide +kernel) hs) hr hclean⟩

/-- What stands in the way of an artifact: a directory of its name. -/
def blockedArtifact : List (Location × Entry) :=
  [(["p".toList, "bin".toList], .directory 0),
    (["p".toList, "bin".toList, "kotlin".toList], .directory 0),
    (["p".toList, "bin".toList, "kotlin".toList, "A.class".toList], .directory 0)]

/-- Where a directory is in the way of an artifact, a rebuild returns a report without sweep failures,
and the artifact has a source but no file. -/
theorem Call.not_agrees_on_blocked_artifact : ∃ s report s', small? blockedArtifact = some s
    ∧ Reachable s ∧ (Call.rebuild smallBuild []).run.runOn s = (.ok report, s')
    ∧ report.sweep.failures = [] ∧ ¬ s'.Agrees := by
  have hrun : ((small? blockedArtifact).map fun s =>
      decide (Ends ((Call.rebuild smallBuild []).run.runOn s)
        (fun report s' => report.sweep.failures = []
          ∧ s'.project.ledger.sourcesOf "bin/kotlin/A.class".toList ≠ []
          ∧ s'.host.disk.isEmptyBelow s'.project.layout.outputRoot = true)
        (fun _ _ => False))) = some true := by
    decide +kernel
  obtain ⟨s, hs, h⟩ := Option.map_eq_some_iff.mp hrun
  rcases hr : (Call.rebuild smallBuild []).run.runOn s with ⟨f | report, s'⟩
  · rw [hr] at h
    exact (of_decide_eq_true h).elim
  rw [hr] at h
  obtain ⟨hclean, hsource, hempty⟩ := of_decide_eq_true h
  refine ⟨s, report, s', hs, reachable_small (by decide +kernel) (by decide +kernel) hs, hr,
    hclean, fun hagrees => ?_⟩
  obtain ⟨p, hholds, -⟩ := (hagrees "bin/kotlin/A.class".toList).mpr hsource
  exact Disk.not_holdsFile_of_isEmptyBelow hempty hholds

end Session

end Provenance
