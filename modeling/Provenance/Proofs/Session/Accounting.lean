/-
What a failed call leaves on the disk.

A call that fails before its publication takes back what it has made. What it cannot
take away it has to name, and it has to leave everything else as it was. It keeps to
that exactly if two things do not happen. The directories of an artifact can be half
made: then some stay that no note tells of (`HalfMakes`). And the journal can refuse
its line: then the failure of the journal comes in the place of the one with the
names.

The rest of the promise holds of every call that fails: the ledger stays as it is, and
nothing that was there is gone or has another content.
-/
import Provenance.Proofs.Journal
import Provenance.Proofs.Session.Publication
import Provenance.Proofs.Update.Rollback

set_option autoImplicit false

namespace Provenance

/-! ## Accounts -/

namespace Update

/-- What a thing is called by: a directory by the text of its path, a file by its key. -/
def Made.Called (l : Layout) (m : Made) : Prop :=
  if m.directory then m.name = m.path.text else m.path.key l.projectRoot = .ok m.name

/-- Of two trees, what the second has beside the first is named, line by line, and nothing else is:
each line is about something that the path it was made under led to when the update failed. All that
the first tree has the second has too, times aside. -/
def Accounted (l : Layout) (before failed after : Tree) (lines : List Text) : Prop :=
  ∃ left, Grown before after left ∧ List.Forall₂ Tells lines left
    ∧ ∀ m ∈ left, m.Called l ∧ Disk.LeadsTo failed m.path m.location

/-- The notes of an update that is taken back account for the tree exactly if they told of all that
was made. -/
theorem Books.accounted_iff {l : Layout} {before : Tree} {c : Cycle} {extras dirs files : List Made}
    (hb : Books l before c extras dirs files) (hio : c.host.OnlyIo) :
    ∃ lines h', (Cycle.rollback c.pending).runOn c.host = (.ok lines, h')
      ∧ ∀ told, told = lines ∨ told = [] →
        (Accounted l before c.host.disk.tree h'.disk.tree told ↔ extras = [] ∧ told = lines) := by
  obtain ⟨lines, left, h', hrun, hg, hlines, hsub⟩ := rollback_grown hb hio
  have hlen := hlines.length_eq
  refine ⟨lines, h', hrun, fun told htold => ⟨?_, ?_⟩⟩
  · rintro ⟨left', hg', htells, -⟩
    -- one line is needed for each thing that is left
    have hcount := hg'.length_eq hg
    have hlen' := htells.length_eq
    rw [List.length_append] at hcount
    rcases htold with rfl | rfl
    · exact ⟨List.length_eq_zero_iff.mp (by omega), rfl⟩
    · rw [List.length_nil] at hlen'
      exact ⟨List.length_eq_zero_iff.mp (by omega),
        (List.length_eq_zero_iff.mp (by omega : lines.length = 0)).symm⟩
  · rintro ⟨rfl, rfl⟩
    have hst := hb.stock
    refine ⟨left, by simpa using hg, hlines, fun m hm => ⟨?_, hst.leadsTo (by simpa using hsub hm)⟩⟩
    unfold Made.Called
    rcases List.mem_append.mp (hsub hm) with hmem | hmem
    · rw [hst.files m hmem]
      exact (hb.artifacts m hmem).2
    · rw [(hst.directories m (by simpa using hmem)).1]
      exact (hst.directories m (by simpa using hmem)).2

end Update

namespace Session

open Action Host

variable {c : Call} {s s' : Session} {f g : Failure}

/-! ## Giving up -/

/-- A disk differs from another one by a line in the journal at most. -/
def LineOnly (journal : Option Path) (d d' : Disk) : Prop :=
  d' = d ∨ ∃ path bytes now, journal = some path ∧ d.append path bytes now = .ok d'

/-- What the journal has more at most is one line. -/
def LineAdded (journal : Option Path) (d d' : Disk) : Prop :=
  d' = d ∨ ∃ path bytes now, journal = some path ∧ Journal.IsLine bytes
    ∧ d.append path bytes now = .ok d'

theorem LineAdded.lineOnly {journal : Option Path} {d d' : Disk} (h : LineAdded journal d d') :
    LineOnly journal d d' :=
  h.imp_right fun ⟨path, bytes, now, hj, _, hc⟩ => ⟨path, bytes, now, hj, hc⟩

/-- Writing an event down adds a line to the journal, or fails with a failure of the store and leaves
the disk as it is. -/
theorem writeDown_line {e : Event} (he : '\n' ∉ e.line) (s : Session) :
    LineAdded s.project.journal s.host.disk ((writeDown e).runOn s).2.host.disk
      ∧ ((∃ s', (writeDown e).runOn s = (.ok (), s')
            ∧ s.project.journal.all (s.host.disk.takesText ·) = true)
        ∨ ∃ errno s', (writeDown e).runOn s = (.error ⟨.io errno, []⟩, s')
            ∧ s.project.journal.all (s.host.disk.takesText ·) = false) := by
  cases hj : s.project.journal with
  | none =>
    rw [writeDown_none hj]
    exact ⟨.inl rfl, .inl ⟨s, rfl, rfl⟩⟩
  | some path =>
    have hok := Disk.append_ok_iff s.host.disk path (Utf8.encode (e.line ++ ['\n'])) s.host.clock.now
    rw [Option.all_some]
    rcases hc : s.host.disk.append path (Utf8.encode (e.line ++ ['\n'])) s.host.clock.now with er | d
    · rw [hc] at hok
      rw [writeDown_of_error hj hc]
      refine ⟨.inl rfl, .inr ⟨_, _, rfl, ?_⟩⟩
      exact Bool.eq_false_iff.mpr fun htakes => by simpa using hok.mpr htakes
    · rw [writeDown_of_ok hj hc]
      exact ⟨.inr ⟨path, _, _, rfl, ⟨e.line, he, rfl⟩, hc⟩, .inl ⟨_, rfl, hok.mp ⟨d, hc⟩⟩⟩

/-- A cycle that gives up adds a line to the journal and fails with what it failed with before; if
the journal does not take the line, it fails with that. -/
theorem giveUp_line (operation cycleId : Text) (n : Nat) (f : Failure) (s : Session) :
    ∃ f' s', (giveUp operation cycleId n f).runOn s = (.error f', s')
      ∧ LineAdded s.project.journal s.host.disk s'.host.disk
      ∧ ((s.project.journal.all (s.host.disk.takesText ·) = true ∧ f' = f)
        ∨ (s.project.journal.all (s.host.disk.takesText ·) = false ∧ ∃ e, f' = ⟨.io e, []⟩)) := by
  cases hj : s.project.journal with
  | none => exact ⟨f, s, giveUp_none hj .., .inl rfl, .inl ⟨rfl, rfl⟩⟩
  | some path =>
    rw [giveUp_some hj]
    have hwrite := writeDown_line (newline_not_mem_eventOfFailure operation cycleId
      (Timestamp.ofReading s.host.clock.now) n f)
      { s with host := { s.host with clock := s.host.clock.next } }
    rw [← hj]
    obtain ⟨hline, ⟨s', hw, htakes⟩ | ⟨errno, s', hw, htakes⟩⟩ := hwrite
    · rw [hw] at hline ⊢
      exact ⟨f, s', rfl, hline, .inl ⟨htakes, rfl⟩⟩
    · rw [hw] at hline ⊢
      exact ⟨_, s', rfl, hline, .inr ⟨htakes, errno, rfl⟩⟩

theorem giveUp_run (operation cycleId : Text) (n : Nat) (f : Failure) (s : Session) :
    ∃ f' s', (giveUp operation cycleId n f).runOn s = (.error f', s')
      ∧ LineOnly s.project.journal s.host.disk s'.host.disk
      ∧ ((s.project.journal.all (s.host.disk.takesText ·) = true ∧ f' = f)
        ∨ (s.project.journal.all (s.host.disk.takesText ·) = false ∧ ∃ e, f' = ⟨.io e, []⟩)) := by
  obtain ⟨f', s', hgive, hline, hends⟩ := giveUp_line operation cycleId n f s
  exact ⟨f', s', hgive, hline.lineOnly, hends⟩

/-! ## Calls that break off -/

namespace Call

/-- The steps of a call fail. -/
def Breaks (c : Call) (s : Session) (g : Failure) (cycle : Update.Cycle) : Prop :=
  ∃ keys s₁, (affectedKeys c.affected).runOn s = (.ok keys, s₁)
    ∧ (c.steps s₁.project keys).runOn s₁.atStart = (.error g, cycle)

/-- The steps of a call come to an artifact whose directories are half made. The session is the one
in which the cycle of the call begins. -/
def Snags (s : Session) (keys : List Text) : Call → Prop
  | .rebuild build _ => ∃ o cycle,
    ComesTo (Update.rebuildOutput s.project.layout s.project.ledger keys) build s.atStart o cycle
      ∧ Update.OutputSnags s.project.layout o cycle
  | .edit resolve _ => ∃ files cycle f cycle',
    (Update.Cycle.onSources SourceSet.listed).runOn s.atStart = (.ok files, cycle)
      ∧ ComesTo (Update.editSource s.project.layout resolve)
        (files.filter fun f => keys.contains f.path) cycle f cycle'
      ∧ Update.FileSnags s.project.layout resolve f cycle'

/-- A call comes to an artifact whose directories are half made. -/
def HalfMakes (c : Call) (s : Session) : Prop :=
  ∃ keys s₁, (affectedKeys c.affected).runOn s = (.ok keys, s₁) ∧ c.Snags s₁ keys

/-- Of what the steps of a call make all is noted, or they come to an artifact whose directories are
half made. -/
theorem forks_steps (hs : s.Sound) (c : Call) (keys : List Text) :
    Forks ((c.steps s.project keys).runOn s.atStart) (c.Snags s keys)
      (fun _ => Update.Complete s.project.layout s.host.disk.tree)
      (Update.Complete s.project.layout s.host.disk.tree)
      (Update.Lacking s.project.layout s.host.disk.tree) := by
  have hstart : Update.Complete s.project.layout s.host.disk.tree s.atStart :=
    ⟨[], [], .refl hs.disk.tree, rfl, rfl, by simp⟩
  cases c with
  | rebuild build affected =>
    exact Update.forks_rebuildSteps hs.layout hstart s.project.ledger keys build
  | edit resolve affected => exact Update.forks_editSteps hs.layout hstart resolve keys

/-- Steps that fail have noted all that they made, or the call half makes directories. -/
theorem Breaks.books (hs : s.Sound) {cycle : Update.Cycle} (hb : c.Breaks s g cycle) :
    ∃ extras dirs files,
      Update.Books s.project.layout s.host.disk.tree cycle extras dirs files
        ∧ (extras = [] ↔ ¬ c.HalfMakes s) := by
  obtain ⟨keys, s₁, hk, hsteps⟩ := hb
  have hforks := forks_steps (hs.keys hk) c keys
  rw [hsteps, (sameLedger_keys hk).layout, host_affectedKeys hk] at hforks
  have hhalf : c.HalfMakes s ↔ c.Snags s₁ keys := by
    constructor
    · rintro ⟨keys', s₁', hk', hsnags⟩
      obtain ⟨rfl, rfl⟩ : keys = keys' ∧ s₁ = s₁' := by simpa [hk] using hk'
      exact hsnags
    · exact fun hsnags => ⟨keys, s₁, hk, hsnags⟩
  by_cases hsnags : c.Snags s₁ keys
  · obtain ⟨g', cycle', heq, extras, dirs, files, hne, hbooks⟩ := hforks.snagged hsnags
    obtain ⟨-, rfl⟩ := Prod.mk.inj heq
    exact ⟨extras, dirs, files, hbooks, iff_of_false hne fun h => h (hhalf.mpr hsnags)⟩
  · obtain ⟨dirs, files, hbooks⟩ := hforks.clear hsnags
    exact ⟨[], dirs, files, hbooks, iff_of_true rfl fun h => hsnags (hhalf.mp h)⟩

/-- Where faults are failed calls the steps leave them so. -/
theorem Breaks.onlyIo (hio : s.host.OnlyIo) {cycle : Update.Cycle} (hb : c.Breaks s g cycle) :
    cycle.host.OnlyIo := by
  obtain ⟨keys, s₁, hk, hsteps⟩ := hb
  have hkeep := (c.steps_respect s₁.project keys (Update.keptIo _)).of_run hsteps
  apply hkeep
  show s₁.host.OnlyIo
  rw [host_affectedKeys hk]
  exact hio

/-- A call whose steps fail is taken back and aborts. -/
theorem Breaks.aborts {cycle : Update.Cycle} (hb : c.Breaks s g cycle) {lines : List Text} {h' : Host}
    (hroll : (Update.Cycle.rollback cycle.pending).runOn cycle.host = (.ok lines, h')) :
    ∃ s₂, c.Aborts s (Update.Cycle.failureOf c.operation lines g) s₂ ∧ s₂.host = h' := by
  obtain ⟨keys, s₁, hk, hsteps⟩ := hb
  refine ⟨s₁.after { cycle with host := h' }, ⟨keys, s₁, hk, underway_error_iff.mpr ?_⟩, rfl⟩
  rw [runSteps_eq, hsteps]
  dsimp only
  rw [hroll]

/-- Where calls of the store fail only as calls do, a call whose steps fail raises and leaves the
ledger as it is. The disk differs from what the call found by what is left of what it has made, and
by a line in the journal. What is left is accounted for by the failure that is raised exactly if no
directories were half made and the failure is not that of the journal in place of one with lines. -/
theorem accounts_iff (hs : Reachable s) (hio : s.host.OnlyIo) {cycle : Update.Cycle}
    (hb : c.Breaks s g cycle) :
    ∃ lines told f d s', c.run.runOn s = (.error f, s')
      ∧ s'.project.ledger = s.project.ledger
      ∧ LineOnly s.project.journal d s'.host.disk
      ∧ ((s.project.journal.all (d.takesText ·) = true
            ∧ f = Update.Cycle.failureOf c.operation lines g ∧ told = lines)
          ∨ (s.project.journal.all (d.takesText ·) = false ∧ (∃ e, f = ⟨.io e, []⟩) ∧ told = []))
      ∧ (Update.Accounted s.project.layout s.host.disk.tree cycle.host.disk.tree d.tree told
          ↔ ¬ c.HalfMakes s ∧ told = lines) := by
  obtain ⟨extras, dirs, files, hbooks, hextras⟩ := hb.books hs.sound
  obtain ⟨lines, h', hroll, haccounted⟩ := hbooks.accounted_iff (hb.onlyIo hio)
  obtain ⟨s₂, haborts, rfl⟩ := hb.aborts hroll
  obtain ⟨cycleId, n, hrun⟩ := haborts.run_eq
  obtain ⟨f, s', hgive, hline, hends⟩ :=
    giveUp_run c.operation cycleId n (Update.Cycle.failureOf c.operation lines g) s₂
  have hsame := (respects_giveUp c.operation cycleId n
    (Update.Cycle.failureOf c.operation lines g)).of_run hgive
  rw [haborts.sameLedger.2.2.2] at hline hends
  have hiff : ∀ told, told = lines ∨ told = [] →
      (Update.Accounted s.project.layout s.host.disk.tree cycle.host.disk.tree s₂.host.disk.tree told
        ↔ ¬ c.HalfMakes s ∧ told = lines) := fun told htold => by
    rw [haccounted told htold, hextras]
  have hledger : s'.project.ledger = s.project.ledger := hsame.1.trans haborts.sameLedger.1
  rcases hends with ⟨htakes, hf⟩ | ⟨htakes, hf⟩
  · exact ⟨lines, lines, f, s₂.host.disk, s', hrun.trans hgive, hledger, hline,
      .inl ⟨htakes, hf, rfl⟩, hiff lines (.inl rfl)⟩
  · exact ⟨lines, [], f, s₂.host.disk, s', hrun.trans hgive, hledger, hline,
      .inr ⟨htakes, hf, rfl⟩, hiff [] (.inr rfl)⟩

/-- A rebuild half makes no directories where no artifact is in a directory with a long name. -/
theorem not_halfMakes_of_short {build : Build} {affected : List Affected}
    (hshort : ∀ o ∈ build, ∀ p, Artifact.locate s.project.layout.outputRoot o.path = .ok p →
      ∀ n ∈ p.parent.names, ¬ Disk.IsLong n) : ¬ (Call.rebuild build affected).HalfMakes s := by
  rintro ⟨keys, s₁, hk, o, cycle, ⟨before, after, rfl, -⟩, p, hlocate, hhalf⟩
  rw [(sameLedger_keys hk).layout] at hlocate
  exact Update.not_halfMade_of_short (hshort o (by simp) p hlocate) hhalf

/-- The lines that an abort carries. -/
def linesOf? : Cause → Option (List Text)
  | .aborted a => some a.rollbackFailures
  | _ => none

theorem linesOf?_eq_some_iff {cause : Cause} {lines : List Text} :
    linesOf? cause = some lines ↔ ∃ a, cause = .aborted a ∧ a.rollbackFailures = lines := by
  cases cause <;> simp [linesOf?]

/-- A build of two artifacts in directories of their own. -/
def apart : Build :=
  [⟨"a/A.class".toList, [smallSource]⟩, ⟨"b/B.class".toList, [smallSource]⟩]

/-- The second artifact cannot be made, and the directory of the first one cannot be removed. -/
def unwilling : List FaultRule :=
  [⟨.createIfAbsent, some "B.class".toList, none, 0, .numbered 28 "No space left on device".toList⟩,
    ⟨.removeDirectory, some "a".toList, none, 0, .numbered 13 "Permission denied".toList⟩]

/-- What a rebuild of the two has to name in that case: the directory, and those it is in. -/
def unwillingLines : List Text :=
  ["/p/bin/kotlin/a: Permission denied".toList, "/p/bin/kotlin: Directory not empty".toList,
    "/p/bin: Directory not empty".toList]

theorem lines_eq_of_failureOf {operation : Text} {lines lines' : List Text}
    (hnone : linesOf? g.cause = none)
    (h : linesOf? (Update.Cycle.failureOf operation lines g).cause = some lines') : lines = lines' := by
  unfold Update.Cycle.failureOf at h
  split at h
  · exact Option.some.inj h
  · exact nomatch hnone.symm.trans h

/-- In the small project that rebuild fails at its second artifact. The directories that it has to name
are all that it leaves. -/
theorem accounts_small : ∃ s g cycle f s' d, Reachable s ∧ s.host.OnlyIo
    ∧ (Call.rebuild apart []).Breaks s g cycle
    ∧ (Call.rebuild apart []).run.runOn s = (.error f, s')
    ∧ s'.project.ledger = s.project.ledger
    ∧ LineOnly s.project.journal d s'.host.disk
    ∧ linesOf? f.cause = some unwillingLines
    ∧ Update.Accounted s.project.layout s.host.disk.tree cycle.host.disk.tree d.tree
      unwillingLines := by
  obtain ⟨s₀, hs₀, hroot, hsteps, hrun⟩ : ∃ s₀ ∈ small? [],
      let s := (Act.meanwhile { s₀.host with faults := unwilling }).perform s₀
      s.project.layout.outputRoot = smallRoot.descend ["bin".toList, "kotlin".toList]
      ∧ Ends (((Call.rebuild apart []).steps s.project []).runOn s.atStart) (fun _ _ => False)
        (fun g _ => linesOf? g.cause = none)
      ∧ Ends ((Call.rebuild apart []).run.runOn s) (fun _ _ => False)
        (fun f _ => linesOf? f.cause = some unwillingLines) := by
    decide +kernel
  have hreach₀ := reachable_small (by decide +kernel) (by decide +kernel) hs₀
  have hreach : Reachable ((Act.meanwhile { s₀.host with faults := unwilling }).perform s₀) :=
    .after _ hreach₀ hreach₀.sound.disk
  have hio : ((Act.meanwhile { s₀.host with faults := unwilling }).perform s₀).host.OnlyIo := by
    intro r hr
    rcases List.mem_cons.mp hr with rfl | hr
    · rfl
    · obtain rfl := List.mem_singleton.mp hr
      rfl
  generalize (Act.meanwhile { s₀.host with faults := unwilling }).perform s₀ = s
    at hroot hsteps hrun hreach hio
  obtain ⟨g, cycle, hbreak, hnone⟩ := hsteps.exists_error
  obtain ⟨f, s', hr, hlines⟩ := hrun.exists_error
  have hbreaks : (Call.rebuild apart []).Breaks s g cycle := ⟨[], s, rfl, hbreak⟩
  have hhalf : ¬ (Call.rebuild apart []).HalfMakes s := by
    apply not_halfMakes_of_short
    intro o ho p hlocate
    rw [hroot] at hlocate
    rcases List.mem_cons.mp ho with rfl | ho
    · obtain rfl := Except.ok.inj hlocate
      decide
    · obtain rfl := List.mem_singleton.mp ho
      obtain rfl := Except.ok.inj hlocate
      decide
  obtain ⟨lines, told, f₁, d, s₁, hr₁, hledger, hline, hends, hiff⟩ := accounts_iff hreach hio hbreaks
  obtain ⟨hf, rfl⟩ := Prod.mk.inj (hr.symm.trans hr₁)
  obtain rfl := Except.error.inj hf
  rcases hends with ⟨-, rfl, rfl⟩ | ⟨-, ⟨e, rfl⟩, -⟩
  · obtain rfl := lines_eq_of_failureOf hnone hlines
    exact ⟨s, g, cycle, _, s', d, hreach, hio, hbreaks, hr, hledger, hline, hlines, hiff.mpr ⟨hhalf, rfl⟩⟩
  · exact nomatch hlines

/-- A build of an artifact in a directory whose name is too long, which is in a directory that is
missing. -/
def tooLong : Build := [⟨"a/".toList ++ List.replicate 256 'n' ++ "/X.class".toList, [smallSource]⟩]

/-- Where directories are half made, they stay, and the failure names none. -/
theorem not_accounted_too_long : ∃ s, small? [] = some s ∧ Reachable s ∧ s.host.OnlyIo
    ∧ s.host.disk.tree.find? ["p".toList, "bin".toList] = none
    ∧ ∃ f s', (Call.rebuild tooLong []).run.runOn s = (.error f, s')
      ∧ (∃ a, f.cause = .aborted a ∧ a.rollbackFailures = []) ∧ f.notes = []
      ∧ s'.host.disk.tree.isDirectory ["p".toList, "bin".toList] = true := by
  have hrun : ((small? []).map fun s => decide (s.host.faults = []
      ∧ s.host.disk.tree.find? ["p".toList, "bin".toList] = none
      ∧ Ends ((Call.rebuild tooLong []).run.runOn s) (fun _ _ => False)
        (fun f s' => linesOf? f.cause = some [] ∧ f.notes = []
          ∧ s'.host.disk.tree.isDirectory ["p".toList, "bin".toList] = true))) = some true := by
    decide +kernel
  obtain ⟨s, hs, h⟩ := Option.map_eq_some_iff.mp hrun
  rcases hr : (Call.rebuild tooLong []).run.runOn s with ⟨f | report, s'⟩
  · rw [hr] at h
    obtain ⟨hfaults, hfree, hlines, hnotes, hmade⟩ := of_decide_eq_true h
    refine ⟨s, hs, reachable_small (by decide +kernel) (by decide +kernel) hs, ?_, hfree,
      f, s', hr, linesOf?_eq_some_iff.mp hlines, hnotes, hmade⟩
    rw [OnlyIo, hfaults]
    simp
  · rw [hr] at h
    exact (of_decide_eq_true h).2.2.elim

end Call

end Session

end Provenance
