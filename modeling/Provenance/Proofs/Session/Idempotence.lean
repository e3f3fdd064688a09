/-
Rebuilding twice.

A rebuild that no file affects, made again at once, should find nothing to do. It does
if the first one has left the disk as the second one needs it: the sweep of the first
has deleted what has no source, and nothing that it would delete or remove is left, so
that only the steps before the sweep can still bring anything about.

They do if an artifact is missing again. The sweep deletes artifacts for which no source
is named, and a directory that stood in the place of an artifact may be removed for being
empty; either is made again. And a journal that is a file below the output directory is
deleted each time, and made again. There is nothing else in the way.
-/
import Provenance.Proofs.Disk.Plain
import Provenance.Proofs.Session.Agreement
import Provenance.Proofs.Update.Settled
import Provenance.Proofs.Update.Standing

set_option autoImplicit false

namespace Provenance

open Action Host

/-! ## What is below a path -/

namespace Disk

variable {d d' : Disk} {root path : Path} {names : List Text} {x y : Location} {e e₀ : Entry}
  {bytes : Bytes}

/-- What names lead to from where a path leads. -/
def entryBelow (d : Disk) (root : Path) (names : List Text) : Option Entry :=
  match d.place true root with
  | .ok (.present loc _) => d.tree.find? (loc ++ names)
  | _ => none

theorem entryBelow_eq_some_iff : d.entryBelow root names = some e
    ↔ ∃ loc e₀, d.place true root = .ok (.present loc e₀) ∧ d.tree.find? (loc ++ names) = some e := by
  unfold entryBelow
  rcases d.place true root with er | ⟨loc, e₀⟩ | ⟨dir, n⟩ <;> simp

/-- Text is appended where the path has led before, if it has led anywhere. -/
theorem Appended.same (happ : Appended d d' path bytes x e) (hd : d.Legal)
    (hpath : path.isAbsolute = true) (hpl : d.place true path = .ok (.present y e₀)) : y = x := by
  by_contra hne
  have hshape := happ.shape y hne
  rw [Tree.shape_of_find? (place_present hpath hpl)] at hshape
  obtain ⟨e', hfind, htimeless⟩ := Option.map_eq_some_iff.mp hshape
  have hlink : e'.isLink = false := by
    rw [← Entry.isLink_timeless, htimeless, Entry.isLink_timeless]
    exact place_not_link hd.tree hpath hpl
  have hstays := place_keeps hpath hpl happ.onward hfind hlink
  rw [happ.place] at hstays
  obtain ⟨rfl, -⟩ : x = y ∧ e = e' := by simpa using hstays
  exact hne rfl

/-- Text that is appended to what is not below a path leaves everything below it as it is. -/
theorem entryBelow_appended (hd : d.Legal) (hd' : d'.Legal) (hroot : root.isAbsolute = true)
    (happ : Appended d d' path bytes x e) (hpl : d.place true path = .ok (.present x e₀))
    (hoff : ∀ loc e₁ names, d.place true root = .ok (.present loc e₁) → names ≠ [] → x ≠ loc ++ names)
    (hne : names ≠ []) : d'.entryBelow root names = d.entryBelow root names := by
  -- a directory that one of the disks has something below is one that the other has too
  apply Option.ext
  intro e'
  rw [entryBelow_eq_some_iff, entryBelow_eq_some_iff]
  constructor
  · rintro ⟨loc, e₁, hpl', hfind⟩
    have hloc := happ.back.directory loc (hd'.tree.isDirectory_of_below hne (by simp [hfind]))
    obtain ⟨time, hloc⟩ := Tree.isDirectory_iff.mp hloc
    have hold := place_keeps hroot hpl' happ.back hloc rfl
    refine ⟨loc, _, hold, ?_⟩
    rw [← happ.find? e₀ hpl _ (hoff loc _ names hold hne).symm]
    exact hfind
  · rintro ⟨loc, e₁, hold, hfind⟩
    have hloc := happ.onward.directory loc (hd.tree.isDirectory_of_below hne (by simp [hfind]))
    obtain ⟨time, hloc⟩ := Tree.isDirectory_iff.mp hloc
    refine ⟨loc, _, place_keeps hroot hold happ.onward hloc rfl, ?_⟩
    rw [happ.find? e₀ hpl _ (hoff loc e₁ names hold hne).symm]
    exact hfind

end Disk

/-! ## The journal -/

namespace Update

variable {l : Layout} {entries : Entries} {journal : Option Path} {d d' d'' : Disk} {names : List Text}

/-- The journal, where there is one, is no file below the output directory. -/
def Layout.Aside (l : Layout) (journal : Option Path) (d : Disk) : Prop :=
  ∀ path x e, journal = some path → d.place true path = .ok (.present x e) → e.isFile = true →
    ∀ loc e' names, d.place true l.outputRoot = .ok (.present loc e') → names ≠ [] →
      x ≠ loc ++ names

theorem Layout.Settled.written (hset : l.Settled entries d) (hs : l.Sound) (hd : d.Legal)
    (hjournal : ∀ p, journal = some p → p.Straight) (hw : Written journal d d')
    (haside : l.Aside journal d') : l.Settled entries d' := by
  cases journal with
  | none =>
    obtain rfl : d' = d := hw
    exact hset
  | some path =>
    obtain ⟨bytes, now, hc⟩ := hw
    have hpath := hjournal path rfl
    obtain ⟨x, e, happ, hfile | rfl⟩ := Disk.appended_of_append hd hpath hc
    · exact hset.appended hs (hd.append hpath hc) happ (haside path x e rfl happ.place hfile)
    · exact hset

/-- A journal that has been written to takes another line. -/
theorem takesText_of_written (hd : d.Legal) (hjournal : ∀ p, journal = some p → p.Straight)
    (hw : Written journal d d') : journal.all (d'.takesText ·) = true := by
  cases journal with
  | none => rfl
  | some path =>
    obtain ⟨bytes, now, hc⟩ := hw
    obtain ⟨x, e, happ, -⟩ := Disk.appended_of_append hd (hjournal path rfl) hc
    rw [Option.all_some, Disk.takesText, happ.place]
    simp [happ.noDirectory]

/-- A second line in a journal leaves everything below the output directory as it is. -/
theorem entryBelow_written (hs : l.Sound) (hd : d.Legal)
    (hjournal : ∀ p, journal = some p → p.Straight) (hw : Written journal d d')
    (hw' : Written journal d' d'') (haside : l.Aside journal d') (hne : names ≠ []) :
    d''.entryBelow l.outputRoot names = d'.entryBelow l.outputRoot names := by
  have habs := (hs.output.straight hs.root).isAbsolute
  cases journal with
  | none =>
    obtain rfl : d'' = d' := hw'
    rfl
  | some path =>
    have hpath := hjournal path rfl
    obtain ⟨bytes, now, hc⟩ := hw
    obtain ⟨bytes', now', hc'⟩ := hw'
    obtain ⟨x, e, happ, -⟩ := Disk.appended_of_append hd hpath hc
    have hd' := hd.append hpath hc
    rcases Disk.append_ok hc' with ⟨dir, n, habsent, -⟩ | ⟨y, content, time, hpl, -⟩ | ⟨y, e', -, -, -, rfl⟩
    · -- the first line has made the journal
      rw [happ.place] at habsent
      simp at habsent
    · obtain ⟨x', e', happ', -⟩ := Disk.appended_of_append hd' hpath hc'
      obtain rfl := happ'.same hd' hpath.isAbsolute hpl
      exact Disk.entryBelow_appended hd' (hd'.append hpath hc') habs happ' hpl
        (haside path y _ rfl hpl rfl) hne
    · rfl

end Update

/-! ## The second rebuild -/

namespace Session

open Update

variable {s s₁ s₂ : Session} {build : Build} {r : Report} {pending : Pending}

/-- What a rebuild that no file affects has left, once it has returned a report without sweep
failures. -/
structure Left (build : Build) (s : Session) : Prop where
  sound : s.Sound
  keyed : ∀ o ∈ build, ∃ key, s.project.layout.keyOf? o = some key
    ∧ isAffected s.project.sources [] o.sources (s.project.ledger.sourcesOf key) = .ok false
  entries : s.project.ledger.entries = s.project.layout.tableOf build
  settled : s.project.layout.Aside s.project.journal s.host.disk →
    s.project.layout.Settled s.project.ledger.entries s.host.disk
  written : ∃ d, d.Legal ∧ Written s.project.journal d s.host.disk

theorem left_of_rebuild (hs : s.Sound) (hr : (Call.rebuild build []).run.runOn s = (.ok r, s₁))
    (hclean : r.sweep.failures = []) : Left build s₁ := by
  have hsound₁ : s₁.Sound := by
    exact (staysSound_run (.rebuild build [])).of_run hr hs
  obtain ⟨pending, s', h, cycleId, started, n, hp, hsweep, -, hw⟩ := Call.report_runs hr
  have hsound' := hs.pends hp
  have hproject := project_writeDown hw
  have hwritten : Written s'.project.journal h.disk s₁.host.disk := writeDown_ok hw
  obtain ⟨keys, s₀, started', hkeys, hunder⟩ := hp
  obtain ⟨hnil, rfl⟩ := Prod.mk.inj hkeys
  obtain rfl : [] = keys := Except.ok.inj hnil
  obtain ⟨c, hsteps, rfl, rfl⟩ := underway_ok hunder
  have hnoted := noted_rebuildSteps (c := s.atStart) rfl hsteps
  -- what the project has come to
  have hlayout : s₁.project.layout = s.project.layout := by
    rw [hproject]
    rfl
  have hsources : s₁.project.sources = s.project.sources := by
    rw [hproject]
    exact hnoted.sources
  have hentries : s₁.project.ledger.entries = s.project.layout.tableOf build := by
    rw [hproject]
    exact hnoted.entries
  have hjournal : s₁.project.journal = s.project.journal := by
    rw [hproject]
    rfl
  have hswept : (sweep s.project.layout (s.project.layout.tableOf build)).runOn c.host
      = (.ok r.sweep, h) := by
    rw [← hnoted.entries]
    exact hsweep
  have hlegal : h.disk.Legal :=
    (staysLegal_sweep s.project.layout (s.project.layout.tableOf build)).of_run hswept hsound'.disk
  have hset := settled_of_sweep hs.layout hsound'.disk hswept hclean
  refine ⟨hsound₁, fun o ho => ?_, by rw [hentries, hlayout], fun haside => ?_, h.disk, hlegal, ?_⟩
  · obtain ⟨key, hkey, haff⟩ := hnoted.isAffected_again ho
    refine ⟨key, by rw [hlayout]; exact hkey, ?_⟩
    rw [hsources, Ledger.sourcesOf, hentries]
    exact haff
  · rw [hlayout, hjournal] at haside
    rw [hlayout, hentries]
    exact hset.written hs.layout hlegal hs.journal hwritten haside
  · rw [hjournal]
    exact hwritten

/-- A rebuild that is made again at once finds nothing to do. -/
theorem rebuild_again (hs : Reachable s) (hr : (Call.rebuild build []).run.runOn s = (.ok r, s₁))
    (hclean : r.sweep.failures = []) (hfaults : s₁.host.faults = [])
    (hstood : s₁.project.layout.Stood build s₁.host.disk)
    (haside : s₁.project.layout.Aside s₁.project.journal s₁.host.disk) :
    ∃ r₂ s₂, (Call.rebuild build []).run.runOn s₁ = (.ok r₂, s₂)
      ∧ r₂.created = [] ∧ r₂.touched = [] ∧ r₂.sweep = ⟨[], [], []⟩
      ∧ s₂.project.ledger.entries = s₁.project.ledger.entries
      ∧ ∀ names, names ≠ [] →
        s₂.host.disk.entryBelow s₁.project.layout.outputRoot names
          = s₁.host.disk.entryBelow s₁.project.layout.outputRoot names := by
  have hleft := left_of_rebuild hs.sound hr hclean
  have hl := hleft.sound.layout
  have hset := hleft.settled haside
  obtain ⟨d, hd, hwritten⟩ := hleft.written
  -- the steps record the outputs, and leave the host as it is
  obtain ⟨entries, hsteps⟩ := rebuildSteps_idle (c := s₁.atStart) hl
    hleft.sound.disk hfaults hleft.keyed hstood
  have hnoted := noted_rebuildSteps (c := s₁.atStart) rfl hsteps
  have hentries : entries = s₁.project.ledger.entries := hnoted.entries.trans hleft.entries.symm
  have hp : (Call.rebuild build []).Pends s₁ ⟨entries, [], [], []⟩
      (s₁.after ⟨s₁.begun.host, s₁.project.sources, ⟨entries, [], [], []⟩⟩) := by
    refine ⟨[], s₁, s₁.host.clock.now, rfl, underway_ok_iff.mpr ⟨rfl, ?_⟩⟩
    rw [runSteps_eq]
    rw [show ((Call.rebuild build []).steps s₁.project []).runOn s₁.atStart = _ from hsteps]
    rfl
  -- neither does the sweep find anything to do, and the journal takes its line
  have hsweep : (sweep s₁.project.layout entries).runOn s₁.begun.host
      = (.ok ⟨[], [], []⟩, s₁.begun.host) := by
    rw [hentries]
    exact hset.sweep (h := s₁.begun.host) hl hfaults hleft.sound.disk
  obtain ⟨r₂, s₂, cycleId, started, n, hrun, hreport, hw⟩ :=
    hp.returns hsweep (takesText_of_written hd hleft.sound.journal hwritten)
  have hproject := project_writeDown hw
  have hagain := writeDown_ok hw
  refine ⟨r₂, s₂, hrun, by rw [hreport]; rfl, by rw [hreport]; rfl, by rw [hreport]; rfl, ?_,
    fun names hne => ?_⟩
  · rw [hproject, ← hentries]
    rfl
  · exact entryBelow_written hl hd hleft.sound.journal hwritten hagain haside hne

/-- The small project, rebuilt once, has its artifact and a journal in the directory of its records;
rebuilt again, it stays as it is. -/
theorem rebuild_again_small : ∃ s r s₁, small? [] = some s
    ∧ (Call.rebuild smallBuild []).run.runOn s = (.ok r, s₁) ∧ r.sweep.failures = []
    ∧ s₁.host.faults = [] ∧ s₁.project.layout.Stood smallBuild s₁.host.disk
    ∧ s₁.project.layout.Aside s₁.project.journal s₁.host.disk
    ∧ ∃ r₂ s₂, (Call.rebuild smallBuild []).run.runOn s₁ = (.ok r₂, s₂)
      ∧ r₂.created = [] ∧ r₂.touched = [] ∧ r₂.sweep = ⟨[], [], []⟩
      ∧ s₂.project.ledger.entries = s₁.project.ledger.entries
      ∧ ∀ names, names ≠ [] →
        s₂.host.disk.entryBelow s₁.project.layout.outputRoot names
          = s₁.host.disk.entryBelow s₁.project.layout.outputRoot names := by
  have hrun : ((small? []).map fun s => decide (Ends ((Call.rebuild smallBuild []).run.runOn s)
      (fun r s₁ => r.sweep.failures = [] ∧ s₁.host.faults = []
        ∧ s₁.host.disk.tree.entries.all (fun le => !le.2.isLink) = true
        ∧ s₁.project.layout.outputRoot = smallRoot.descend ["bin".toList, "kotlin".toList]
        ∧ s₁.project.journal = some (smallRoot.descend [".lightclass".toList, "audit.jsonl".toList])
        ∧ s₁.host.disk.place false
            (smallRoot.descend ["bin".toList, "kotlin".toList, "A.class".toList])
          = .ok (.present ["p".toList, "bin".toList, "kotlin".toList, "A.class".toList] (.file [] 4)))
      (fun _ _ => False))) = some true := by
    decide +kernel
  obtain ⟨s, hs, h⟩ := Option.map_eq_some_iff.mp hrun
  have hend := of_decide_eq_true h
  have hreach := reachable_small (by decide +kernel) (by decide +kernel) hs
  have hsound₁ := staysSound_run (.rebuild smallBuild []) s hreach.sound
  rcases hr : (Call.rebuild smallBuild []).run.runOn s with ⟨f | r, s₁⟩
  · rw [hr] at hend
    exact hend.elim
  rw [hr] at hend hsound₁
  obtain ⟨hclean, hfaults, hentries, hroot, hjournal, hthere⟩ := hend
  have hstood : s₁.project.layout.Stood smallBuild s₁.host.disk := by
    intro o ho p hlocate
    obtain rfl := List.mem_singleton.mp ho
    rw [hroot] at hlocate
    obtain rfl := Except.ok.inj hlocate
    exact ⟨_, _, hthere⟩
  -- without links the output directory and the journal are where their paths say
  have hfree := Tree.linkFree_of_entries hsound₁.disk.tree.nodes hentries
  have haside : s₁.project.layout.Aside s₁.project.journal s₁.host.disk := by
    intro path x e hpath hx _ loc e' names hloc _ heq
    have hstraight := hsound₁.layout.output.straight hsound₁.layout.root
    obtain ⟨e₁, hx', -⟩ | ⟨dir, n, hno, -⟩ :=
      Disk.place_plain hfree (hsound₁.journal path hpath) hx
    · obtain ⟨e₂, hloc', -⟩ | ⟨dir, n, hno, -⟩ := Disk.place_plain hfree hstraight hloc
      · obtain ⟨rfl, -⟩ := Disk.Place.present.inj hx'
        obtain ⟨rfl, -⟩ := Disk.Place.present.inj hloc'
        obtain rfl : smallRoot.descend _ = path := Option.some.inj (hjournal.symm.trans hpath)
        rw [hroot] at heq
        simp [smallRoot, Path.descend] at heq
      · simp at hno
    · simp at hno
  exact ⟨s, r, s₁, hs, hr, hclean, hfaults, hstood, haside,
    rebuild_again hreach hr hclean hfaults hstood haside⟩

/-- An artifact for which no source is named is made and deleted each time. -/
theorem not_idempotent_without_source : ∃ s r s₁ r₂ s₂, Reachable s
    ∧ (Call.rebuild [⟨"A.class".toList, []⟩] []).run.runOn s = (.ok r, s₁) ∧ r.sweep.failures = []
    ∧ s₁.host.faults = []
    ∧ (Call.rebuild [⟨"A.class".toList, []⟩] []).run.runOn s₁ = (.ok r₂, s₂)
    ∧ r₂.created = ["bin/kotlin/A.class".toList]
    ∧ r₂.sweep.deleted = ["bin/kotlin/A.class".toList] := by
  have hrun : ((small? []).map fun s => decide (
      Ends ((Call.rebuild [⟨"A.class".toList, []⟩] []).run.runOn s)
        (fun r s₁ => r.sweep.failures = [] ∧ s₁.host.faults = []
          ∧ Ends ((Call.rebuild [⟨"A.class".toList, []⟩] []).run.runOn s₁)
            (fun r₂ _ => r₂.created = ["bin/kotlin/A.class".toList]
              ∧ r₂.sweep.deleted = ["bin/kotlin/A.class".toList]) (fun _ _ => False))
        (fun _ _ => False))) = some true := by
    decide +kernel
  obtain ⟨s, hs, h⟩ := Option.map_eq_some_iff.mp hrun
  have hend := of_decide_eq_true h
  have hreach := reachable_small (by decide +kernel) (by decide +kernel) hs
  rcases hr : (Call.rebuild [⟨"A.class".toList, []⟩] []).run.runOn s with ⟨f | r, s₁⟩
  · rw [hr] at hend
    exact hend.elim
  rw [hr] at hend
  obtain ⟨hclean, hfaults, hend₂⟩ := hend
  rcases hr₂ : (Call.rebuild [⟨"A.class".toList, []⟩] []).run.runOn s₁ with ⟨f | r₂, s₂⟩
  · rw [hr₂] at hend₂
    exact hend₂.elim
  rw [hr₂] at hend₂
  obtain ⟨hcreated, hdeleted⟩ := hend₂
  exact ⟨s, r, s₁, r₂, s₂, hreach, hr, hclean, hfaults, hr₂, hcreated, hdeleted⟩

end Session

end Provenance
