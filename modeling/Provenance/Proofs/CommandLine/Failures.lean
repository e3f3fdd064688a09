/-
What commands fail with.

A command goes through settings, manifests, sources, the steps of an update, the sweep and
the journal, and each of them fails in ways of its own. Nearly all of these have a verdict.
`Strays` lists those that have none, and what has to be the case for each of them to come up.
That a command fails with nothing else (`runCommand_fails`) is put together from what its
parts fail with.

What is said of the parts is said for any kind of causes that takes in all those with a
verdict, and besides them what the part at hand may stray with.
-/
import Provenance.Proofs.CommandLine.Outline
import Provenance.Proofs.Disk.Plain
import Provenance.Proofs.Session.Chronicle

set_option autoImplicit false

namespace Provenance

open Action

/-! ## Paths and settings -/

section Reading

variable {d : Disk} {P : Cause → Prop} (hverdict : ∀ c, (CommandLine.verdict c).isSome = true → P c)
  (hloop : ¬d.tree.LinkFree → ∀ q, P (.linkLoop q))
include hverdict hloop

theorem errs_absolute (p : Path) : Errs P (d.absolute p) := by
  intro c hc
  unfold Disk.absolute at hc
  rcases hr : d.resolve p with u | q
  · obtain rfl : u.cause = c := by simpa [hr] using hc
    cases u with
    | adrift => exact hverdict _ rfl
    | loop q => exact hloop (fun hfree => Disk.resolve_ne_loop hfree p q hr) _
  · simp [hr] at hc

/-- Looking at sources fails with a verdict, or in a loop of links. -/
theorem kind_of_isLook {f : Failure} (h : SourceSet.IsLook d f) : P f.cause := by
  obtain ⟨cause, notes⟩ := f
  cases notes with
  | cons note notes => cases cause <;> exact h.elim
  | nil =>
    cases cause with
    | linkLoop q =>
      obtain ⟨p, q', hr⟩ := h
      exact hloop (fun hfree => Disk.resolve_ne_loop hfree p q' hr) q
    | io e => exact hverdict _ rfl
    | outside e => exact hverdict _ rfl
    | contract e => exact hverdict _ rfl
    | _ => exact h.elim

namespace Settings

/-- Settings cannot be loaded where a path is in a loop of links, or where the settings file nests
too deep; else there is a verdict. -/
theorem errs_load (htoml : P (.toml .tooDeep)) (root : Path) (o : Overrides) :
    Errs P (load d root o) := by
  have hfile : ∀ directory, Errs P (readFile d directory) := by
    intro directory
    refine errs_bind (errs_mapError fun _ => hverdict _ rfl) fun there _ => ?_
    cases there with
    | false => exact errs_ok _
    | true =>
      refine errs_bind (errs_mapError fun _ => hverdict _ rfl) fun content _ => ?_
      refine errs_bind (errs_mapError fun _ => hverdict _ rfl) fun text _ => ?_
      refine errs_mapError fun e => ?_
      cases e with
      | tooDeep => exact htoml
      | _ => exact hverdict _ rfl
  refine errs_bind (errs_absolute hverdict hloop _) fun directory _ => ?_
  refine errs_bind (errs_absolute hverdict hloop _) fun root _ => ?_
  refine errs_bind (hfile directory) fun file _ => ?_
  refine errs_bind (errs_mapError fun _ => hverdict _ rfl) fun merged _ => ?_
  exact errs_bind (errs_absolute hverdict hloop _) fun dataDir _ => errs_ok _

end Settings

namespace Build

/-- The same is true of a build and its manifest. -/
theorem errs_load (hjson : ∀ v, P (.json (.tooDeep v))) (path root : Path) :
    Errs P (load d path root) := by
  refine errs_bind (errs_mapError fun _ => hverdict _ rfl) fun content _ => ?_
  refine errs_bind (errs_mapError fun _ => hverdict _ rfl) fun text _ => ?_
  refine errs_bind (errs_mapError fun e => ?_) fun manifest _ => ?_
  · cases e with
    | tooDeep v => exact hjson v
    | _ => exact hverdict _ rfl
  · refine errs_bind (errs_mapError fun _ => hverdict _ rfl) fun values _ => ?_
    refine errs_bind (errs_absolute hverdict hloop _) fun root _ => ?_
    exact errs_mapError fun _ => hverdict _ rfl

end Build

end Reading

/-! ## Directories -/

namespace Host

/-- What making directories fails with: a failed call, or more of them missing above one another than
can be made at once. -/
def IsMaking (depth : Nat) (path : Path) (c : Cause) : Prop :=
  (∃ e, c = .io e) ∨ c = .deepMaking ∧ depth < path.names.length

theorem isMaking_of_failsAsCall {act : Action Host Unit} (hact : FailsAsCall act) (depth : Nat)
    (path : Path) {h : Host} (hio : h.OnlyIo) :
    Ends (act.runOn h) (fun _ h' => h'.OnlyIo) fun f _ => IsMaking depth path f.cause :=
  (hact h hio).imp (fun _ _ hq => hq) fun _ _ ⟨_, e, hf⟩ => .inl ⟨e, congrArg Failure.cause hf⟩

theorem ends_makeDirectoriesWithin (depth : Nat) (path : Path) {h : Host} (hio : h.OnlyIo) :
    Ends ((makeDirectoriesWithin depth path).runOn h) (fun _ h' => h'.OnlyIo)
      fun f _ => IsMaking depth path f.cause := by
  have hthere : ∀ path e, FailsAsCall (do
      if ← ask path (·.hasDirectory path) then pure ()
      else Action.fail (.io (.ofErrno e path))) := fun path e =>
    failsAsCall_bind (failsAsCall_ask _ _) fun b => by
      cases b with
      | true => exact failsAsCall_pure _
      | false => exact failsAsCall_fail _
  have hlength : ∀ path : Path, path.parent ≠ path → 0 < path.names.length := by
    intro path hparent
    refine List.length_pos_iff.mpr fun hnil => hparent ?_
    obtain ⟨anchor, names⟩ := path
    obtain rfl : names = [] := hnil
    rfl
  -- a parent that is missing is made first, and one level of the depth is used up for it
  induction depth generalizing path h with
  | zero =>
    unfold makeDirectoriesWithin
    rw [runOn_bind, runOn_get]
    dsimp only
    split
    · exact hio
    · split
      · exact .inl ⟨_, rfl⟩
      · rename_i hparent
        exact .inr ⟨rfl, hlength path hparent⟩
    · exact isMaking_of_failsAsCall (hthere path _) 0 path hio
  | succ depth ih =>
    unfold makeDirectoriesWithin
    rw [runOn_bind, runOn_get]
    dsimp only
    split
    · exact hio
    · split
      · exact .inl ⟨_, rfl⟩
      · rename_i hparent
        have habove := ih path.parent hio
        refine ends_bind (habove.imp (fun _ _ hq => hq) fun f _ hf => ?_) fun _ h' hio' =>
          isMaking_of_failsAsCall (failsAsCall_makeDirectory path) _ path hio'
        rcases hf with hf | ⟨hf, hdeep⟩
        · exact .inl hf
        · have hpos := hlength path hparent
          rw [Path.parent, List.length_dropLast] at hdeep
          exact .inr ⟨hf, by omega⟩
    · exact isMaking_of_failsAsCall (hthere path _) _ path hio

end Host

/-! ## Opening a project -/

section Opening

variable {P : Cause → Prop} (hverdict : ∀ c, (CommandLine.verdict c).isSome = true → P c)
include hverdict

/-- A project cannot be set up where a path is in a loop of links, or where too many directories are
missing; else there is a verdict. -/
theorem Session.ends_setUp {settings : Settings} {h : Host} (hio : h.OnlyIo)
    (hloop : ¬h.disk.tree.LinkFree → ∀ q, P (.linkLoop q))
    (hdeep : settings.audit = true → maxNesting < settings.dataDir.names.length → P .deepMaking) :
    Ends ((setUp settings).runOn h) (fun _ h' => h'.OnlyIo) fun f _ => P f.cause := by
  unfold setUp
  refine ends_get_bind ?_
  refine ends_ofExcept_bind (errs_absolute hverdict hloop _) fun root _ => ?_
  split
  · rename_i haudit
    refine ends_bind (M := fun _ h' => h'.OnlyIo) ?_ fun _ h' hio' => hio'
    refine (Host.ends_makeDirectoriesWithin maxNesting settings.auditLog.parent hio).imp
      (fun _ _ hq => hq) fun f _ hf => ?_
    rcases hf with ⟨e, hf⟩ | ⟨hf, hlong⟩
    · exact hf ▸ hverdict _ rfl
    · rw [Settings.auditLog, Path.parent_child] at hlong
      exact hf ▸ hdeep haudit hlong
  · exact hio

end Opening

/-! ## Sources -/

section Sources

variable {d : Disk} {P : Cause → Prop} (hverdict : ∀ c, (CommandLine.verdict c).isSome = true → P c)
  (hloop : ¬d.tree.LinkFree → ∀ q, P (.linkLoop q))
include hverdict hloop

/-- What is done with the sources leaves the disk as it is. -/
theorem Session.failsBy_onSources {α : Type} {act : Disk → Action SourceSet α}
    (h : Blames (SourceSet.IsLook d) (act d)) :
    FailsBy (fun s => s.host.disk = d) P (onSources act) := by
  rintro s rfl
  rw [runOn_onSources]
  rcases hr : (act s.host.disk).runOn s.project.sources with ⟨f | a, sources⟩
  · exact kind_of_isLook hverdict hloop (h _ _ _ hr)
  · rfl

theorem Session.failsBy_affectedKeys (affected : List Affected) :
    FailsBy (fun s => s.host.disk = d) P (affectedKeys affected) := by
  induction affected with
  | nil => exact failsBy_pure _
  | cons a rest ih =>
    refine failsBy_bind failsBy_get fun s => ?_
    split
    · exact ih
    · refine failsBy_bind ?_ fun _ => failsBy_bind ih fun keys => failsBy_pure _
      exact failsBy_onSources hverdict hloop (SourceSet.blames_trackIfPresent d _)

end Sources

/-! ## Rebuilds -/

section Rebuilds

variable {P : Cause → Prop} (hverdict : ∀ c, (CommandLine.verdict c).isSome = true → P c)
include hverdict

namespace Update

theorem Cycle.failsBy_onHost {α : Type} {act : Action Host α} (h : Host.FailsAsCall act) :
    FailsBy (fun c : Cycle => c.host.OnlyIo) P (onHost act) := by
  intro c hio
  have hends := h c.host hio
  rw [runOn_onHost]
  rcases hr : act.runOn c.host with ⟨f | a, h'⟩
  · rw [hr] at hends
    obtain ⟨-, e, rfl⟩ := hends
    exact hverdict _ rfl
  · rw [hr] at hends
    exact hends

omit hverdict in
theorem Cycle.failsBy_note (change : Pending → Pending) :
    FailsBy (fun c : Cycle => c.host.OnlyIo) P (note change) := fun _ hio => hio

theorem Cycle.failsBy_materialize (a : ArtifactFile) :
    FailsBy (fun c : Cycle => c.host.OnlyIo) P (materialize a) := by
  refine failsBy_bind (failsBy_onHost hverdict (Store.failsAsCall_createDirectories _)) fun dirs => ?_
  refine failsBy_bind (failsBy_note _) fun _ => ?_
  refine failsBy_bind (failsBy_onHost hverdict (Store.failsAsCall_createIfAbsent _)) fun created => ?_
  cases created with
  | false => exact failsBy_pure _
  | true => exact failsBy_bind (failsBy_note _) fun _ => failsBy_pure _

theorem errs_anyAffected (s : SourceSet) (affected : List Text) (locations : List Path) :
    Errs P (anyAffected s affected locations) := by
  induction locations with
  | nil => exact errs_ok _
  | cons location rest ih =>
    unfold anyAffected
    split
    · exact errs_error (hverdict _ rfl)
    · split
      · exact errs_ok _
      · exact ih

theorem errs_isAffected (s : SourceSet) (affected : List Text) (sources previous : List Path) :
    Errs P (isAffected s affected sources previous) := by
  unfold isAffected
  split
  · exact errs_anyAffected hverdict s affected previous
  · exact errs_anyAffected hverdict s affected sources

/-- Every failure of the steps of a rebuild has a verdict. -/
theorem failsBy_rebuildSteps (l : Layout) (ledger : Ledger) (affected : List Text) (build : Build) :
    FailsBy (fun c : Cycle => c.host.OnlyIo) P (rebuildSteps l ledger affected build) := by
  refine failsBy_forM _ fun o => ?_
  refine failsBy_bind (failsBy_ofExcept fun _ _ => hverdict _ rfl) fun location => ?_
  refine failsBy_bind (failsBy_ofExcept ?_) fun a => ?_
  · unfold Layout.artifact
    split
    · exact errs_ok _
    · exact errs_error (hverdict _ rfl)
  refine failsBy_bind (Cycle.failsBy_materialize hverdict a) fun _ => ?_
  refine failsBy_bind failsBy_get fun c => ?_
  refine failsBy_bind (failsBy_ofExcept (errs_isAffected hverdict _ _ _ _)) fun stale => ?_
  have hrecord : FailsBy (fun c : Cycle => c.host.OnlyIo) P (Cycle.record a o.sources) :=
    Cycle.failsBy_note _
  cases stale with
  | false => exact hrecord
  | true =>
    refine failsBy_bind ?_ fun _ => hrecord
    exact failsBy_bind (Cycle.failsBy_onHost hverdict (Store.failsAsCall_touch _)) fun _ =>
      Cycle.failsBy_note _

end Update

namespace Session

variable {s s' : Session} {f : Failure}

/-- A failure that has a verdict has one too when it is that of an update taken back. -/
theorem kind_failureOf {operation : Text} {lines : List Text} (h : P f.cause) :
    P (Update.Cycle.failureOf operation lines f).cause := by
  unfold Update.Cycle.failureOf
  split
  · exact hverdict _ rfl
  · exact h

theorem kind_giveUp {operation cycleId : Text} {n : Nat} {g : Failure} (hg : P g.cause)
    (hr : (giveUp operation cycleId n g).runOn s = (.error f, s')) : P f.cause := by
  obtain ⟨f', s'', hgive, -, ⟨-, rfl⟩ | ⟨-, e, rfl⟩⟩ := giveUp_run operation cycleId n g s
  · obtain rfl : f' = f := Except.error.inj (Prod.mk.inj (hgive.symm.trans hr)).1
    exact hg
  · obtain rfl : _ = f := Except.error.inj (Prod.mk.inj (hgive.symm.trans hr)).1
    exact hverdict _ rfl

/-- A cycle that is concluded fails only where it cannot be written down. -/
theorem kind_conclude {operation : Text} {n : Nat} {report : Report}
    (hr : (conclude operation n report).runOn s = (.error f, s')) : P f.cause := by
  rw [conclude_eq] at hr
  obtain ⟨-, ⟨s₁, hwrite, -⟩ | ⟨errno, s₁, hwrite, -⟩⟩ :=
    writeDown_line (newline_not_mem_eventOfReport n report) (s.reported operation report)
  · simp [hwrite] at hr
  · rw [hwrite] at hr
    obtain rfl : _ = f := Except.error.inj (Prod.mk.inj hr).1
    exact hverdict _ rfl

/-- A rebuild strays in a loop of links, or where directories lie too deep that are to be
removed. -/
theorem kind_rebuild {build : Build} {affected : List Affected} (hs : s.Sound) (hio : s.host.OnlyIo)
    (hloop : ¬s.host.disk.tree.LinkFree → ∀ q, P (.linkLoop q))
    (hdeep : s.project.settings.output.prune = true → P .deepSearch)
    (hr : (rebuild build affected).runOn s = (.error f, s')) : P f.cause := by
  change (Call.rebuild build affected).run.runOn s = (.error f, s') at hr
  rcases (Call.rebuild build affected).outcomes s
    with ⟨g, s₁, hd⟩ | ⟨g, s₁, ha⟩ | ⟨pending, s₁, hp⟩
  · -- before the cycle, where sources have been asked for
    rw [hd.run_eq] at hr
    obtain rfl := Except.error.inj (Prod.mk.inj hr).1
    have hkeys := failsBy_affectedKeys hverdict hloop affected s rfl
    rwa [show (affectedKeys affected).runOn s = (.error g, s₁) from hd] at hkeys
  · -- in its steps, which are taken back
    obtain ⟨cycleId, n, hrun⟩ := ha.run_eq
    rw [hrun] at hr
    refine kind_giveUp hverdict ?_ hr
    obtain ⟨g', cycle, lines, ⟨keys, s₂, hk, hsteps⟩, rfl, -⟩ := ha.breaks hs hio
    have hends := Update.failsBy_rebuildSteps hverdict s₂.project.layout s₂.project.ledger keys build
      s₂.atStart (show s₂.host.OnlyIo from host_affectedKeys hk ▸ hio)
    rw [show (Update.rebuildSteps s₂.project.layout s₂.project.ledger keys build).runOn s₂.atStart
      = (.error g', cycle) from hsteps] at hends
    exact kind_failureOf hverdict hends
  · -- after the publication, in the sweep or when it is written down
    obtain ⟨cycleId, started, n, hrun⟩ := hp.run_eq
    rw [hrun, settle_eq] at hr
    have hsweep : Update.SweepRun s₁.project.layout pending.entries s₁.host (s₁.sweepAfter pending) :=
      Update.sweepRun (hs.pends hp).layout (hs.pends hp).disk (hp.onlyIo hio)
    rcases hafter : s₁.sweepAfter pending with ⟨g | swept, h₁⟩
    · rw [hafter] at hsweep hr
      refine kind_giveUp hverdict ?_ hr
      cases hsweep with
      | tripped _ hprune _ =>
        rw [hp.sameLedger.layout] at hprune
        exact hdeep hprune
    · rw [hafter] at hr
      exact kind_conclude hverdict hr

end Session

end Rebuilds

/-! ## Commands -/

namespace CommandLine

/-- Whether a command is one that updates. -/
def Command.IsSync : Command → Prop
  | .sync _ _ => True
  | .outline _ => False

theorem pathOf_error {value : Arguments.Value} {c : Cause} (h : pathOf value = .error c) :
    value = none ∧ c = .noPath := by
  cases value with
  | none => exact ⟨rfl, (Except.error.inj h).symm⟩
  | some t => exact nomatch h

section Commands

variable {d : Disk} {P : Cause → Prop} (hverdict : ∀ c, (verdict c).isSome = true → P c)
include hverdict

theorem errs_locationsOf (l : Update.Layout) (b : Binding) (ds : List Outline.Declaration) :
    Errs P (Update.locationsOf l (.ofBinding b) ds) := by
  induction ds with
  | nil => exact errs_ok _
  | cons declaration ds ih =>
    unfold Update.locationsOf
    split
    · exact ih
    · refine errs_bind (errs_ok _) fun c _ => ?_
      cases c with
      | none => exact ih
      | some c =>
        refine errs_bind (errs_mapError fun _ => hverdict _ rfl) fun location _ => ?_
        exact errs_bind ih fun _ _ => errs_ok _

theorem errs_keysOf (l : Update.Layout) (locations : List Path) : Errs P (keysOf l locations) := by
  induction locations with
  | nil => exact errs_ok _
  | cons location rest ih =>
    unfold keysOf Update.Layout.artifact
    cases location.key l.projectRoot with
    | error e => exact errs_error (hverdict _ rfl)
    | ok key => exact errs_map ih

theorem errs_showUnits (l : Update.Layout) (b : Binding) (units : List Outline.SourceUnit) :
    Errs P (showUnits l b units) := by
  have hunit : ∀ u, Errs P (showUnit l b u) := fun u =>
    errs_bind (errs_locationsOf hverdict l b _) fun locations _ =>
      errs_bind (errs_keysOf hverdict l locations) fun keys _ => errs_ok _
  induction units with
  | nil => exact errs_ok _
  | cons u units ih =>
    unfold showUnits
    split
    · rename_i e he
      exact errs_error (hunit u e he)
    · exact errs_map ih

variable (hloop : ¬d.tree.LinkFree → ∀ q, P (.linkLoop q))
include hloop

theorem failsBy_unitsOf (paths : List Text) : FailsBy (fun s => s.host.disk = d) P (unitsOf paths) := by
  induction paths with
  | nil => exact failsBy_pure _
  | cons raw rest ih =>
    refine failsBy_bind failsBy_get fun s => ?_
    dsimp only
    split
    case' h_1 =>
      refine failsBy_bind (Session.failsBy_onSources hverdict hloop (SourceSet.blames_unitOf d _))
        fun unit => ?_
    case' h_2 => refine failsBy_bind (failsBy_pure none) fun unit => ?_
    all_goals
      refine failsBy_bind ih fun found => ?_
      cases unit <;> exact failsBy_pure _

/-- An outline strays in a loop of links only. -/
theorem failsBy_outline (paths : List Text) : FailsBy (fun s => s.host.disk = d) P (outline paths) := by
  refine failsBy_bind (failsBy_unitsOf hverdict hloop paths) fun found => ?_
  refine failsBy_bind failsBy_get fun s => ?_
  refine failsBy_bind (failsBy_ofExcept fun _ _ => hverdict _ rfl) fun binding => ?_
  refine failsBy_bind (failsBy_ofExcept (errs_showUnits hverdict _ _ _)) fun files => ?_
  exact failsBy_pure _

end Commands

/-- What a command fails with in a session. -/
theorem kind_command {P : Cause → Prop} {s s' : Session} {f : Failure} {c : Command}
    (hverdict : ∀ c, (verdict c).isSome = true → P c) (hs : s.Sound) (hio : s.host.OnlyIo)
    (hloop : ¬s.host.disk.tree.LinkFree → ∀ q, P (.linkLoop q))
    (hgiven : ∀ affected, c = .sync none affected → P .noPath)
    (hjson : c.IsSync → ∀ v, P (.json (.tooDeep v)))
    (hdeep : c.IsSync → s.project.settings.output.prune = true → P .deepSearch)
    (hr : (command c).runOn s = (.error f, s')) : P f.cause := by
  cases c with
  | outline paths =>
    have hends := failsBy_outline hverdict hloop paths s rfl
    rwa [show (outline paths).runOn s = (.error f, s') from hr] at hends
  | sync manifest affected =>
    have hends : Ends ((sync manifest affected).runOn s) (fun _ _ => True) fun f _ => P f.cause := by
      refine ends_get_bind (ends_ofExcept_bind (fun e he => ?_) fun path _ => ?_)
      · obtain ⟨rfl, rfl⟩ := pathOf_error he
        exact hgiven affected rfl
      refine ends_ofExcept_bind (Build.errs_load hverdict hloop (hjson trivial) _ _) fun build _ => ?_
      refine ends_bind (M := fun _ _ => True) ?_ fun _ _ _ => trivial
      rcases hrun : (Session.rebuild build (affected.map .spelled)).runOn s with ⟨g | report, s₁⟩
      · exact Session.kind_rebuild hverdict hs hio hloop (hdeep trivial) hrun
      · trivial
    rwa [show (sync manifest affected).runOn s = (.error f, s') from hr] at hends

/-! ## Runs -/

/-- The settings that a run works with. -/
def settingsOf (d : Disk) (o : Options) : Except Cause Settings := do
  let overrides ← overridesOf d o
  let root ← pathOf o.projectRoot
  Settings.load d root overrides

/-- Whether an option that spells a path is given nothing. -/
def Options.GivesNothing (o : Options) : Prop :=
  o.dataDir = some none ∨ o.projectRoot = none ∨ ∃ affected, o.command = .sync none affected

/-- The failures of a run that have no verdict, and what it takes for each. -/
def Strays (o : Options) (d : Disk) : Cause → Prop
  | .noPath => o.GivesNothing
  | .linkLoop _ => ¬d.tree.LinkFree
  | .toml .tooDeep => True
  | .json (.tooDeep _) => o.command.IsSync
  | .deepMaking => ∃ s, settingsOf d o = .ok s ∧ s.audit = true ∧ maxNesting < s.dataDir.names.length
  | .deepSearch => o.command.IsSync ∧ ∃ s, settingsOf d o = .ok s ∧ s.output.prune = true
  | _ => False

variable {o : Options} {d : Disk} {c : Cause} {h h' : Host} {f : Failure} {p : Project} {root : Path}
  {overrides : Overrides}

/-- What strays has no verdict. -/
theorem Strays.verdict_eq (hc : Strays o d c) : verdict c = none := by
  unfold Strays at hc
  split at hc <;> first | rfl | exact hc.elim

theorem settingsOf_ok {settings : Settings} (hoverrides : overridesOf d o = .ok overrides)
    (hroot : pathOf o.projectRoot = .ok root) (hload : Settings.load d root overrides = .ok settings) :
    settingsOf d o = .ok settings := by
  rw [settingsOf, hoverrides]
  show (pathOf o.projectRoot >>= fun root => Settings.load d root overrides) = _
  rw [hroot]
  exact hload

theorem spelled_pathOf {value : Arguments.Value} (h : pathOf value = .ok root) : root.Spelled := by
  cases value with
  | none => exact nomatch h
  | some t => exact Except.ok.inj h ▸ Path.spelled_ofText t

/-- The data directory that options set. -/
def dataDirOf (d : Disk) (given : Option Arguments.Value) : Except Cause (Option Path) :=
  match given with
  | none => .ok none
  | some value => do (d.absolute (← pathOf value)).map some

theorem overridesOf_eq (d : Disk) (o : Options) :
    overridesOf d o = (dataDirOf d o.dataDir).map fun dir =>
    { dataDir := dir
      outputDir := (o.outputDir.map fun given => given.elim (.arr []) .str).getD .null
      prune := (o.prune.map Json.bool).getD .null
      audit := (o.audit.map Json.bool).getD .null } := by
  unfold overridesOf dataDirOf
  rcases o.dataDir with _ | value
  · rfl
  · dsimp only
    rcases pathOf value with c | path
    · rfl
    · change (d.absolute path).map some >>= _ = ((d.absolute path).map some).map _
      cases d.absolute path <;> rfl

theorem errs_overridesOf {P : Cause → Prop} (hverdict : ∀ c, (verdict c).isSome = true → P c)
    (hloop : ¬d.tree.LinkFree → ∀ q, P (.linkLoop q)) (hgiven : o.dataDir = some none → P .noPath) :
    Errs P (overridesOf d o) := by
  rw [overridesOf_eq]
  refine errs_map ?_
  unfold dataDirOf
  split
  · exact errs_ok _
  · rename_i value hvalue
    refine errs_bind (fun e he => ?_) fun path _ => errs_map (errs_absolute hverdict hloop path)
    obtain ⟨rfl, rfl⟩ := pathOf_error he
    exact hgiven hvalue

/-- A data directory that options set is absolute. -/
theorem spelled_overridesOf (hd : d.Legal) (h : overridesOf d o = .ok overrides) :
    overrides.Spelled := by
  rw [overridesOf_eq] at h
  rcases hdata : dataDirOf d o.dataDir with c | dataDir
  · rw [hdata] at h
    exact nomatch h
  rw [hdata] at h
  obtain rfl := Except.ok.inj h
  rintro q rfl
  unfold dataDirOf at hdata
  split at hdata
  · exact nomatch hdata
  obtain ⟨path, hpath, hdata⟩ := except_bind_ok_iff.mp hdata
  rcases habsolute : d.absolute path with e | q'
  · rw [habsolute] at hdata
    exact nomatch hdata
  · rw [habsolute] at hdata
    obtain rfl := Option.some.inj (Except.ok.inj hdata)
    exact (Disk.straight_of_absolute hd (spelled_pathOf hpath) habsolute).spelled

/-- A project that a run has opened is a sound session, and opening it has made no links. -/
theorem sound_open (hd : h.disk.Legal) (hroot : root.Spelled) (ho : overrides.Spelled)
    (hr : (Project.open root overrides).runOn h = (.ok p, h')) :
    (⟨h', p⟩ : Session).Sound ∧ (h.disk.tree.LinkFree → h'.disk.tree.LinkFree) := by
  have hopen : Session.openOn root overrides h = some ⟨h', p⟩ := by
    rw [Session.openOn, hr]
  refine ⟨Session.sound_openOn hd hroot ho hopen, fun hfree => ?_⟩
  obtain ⟨hload, -, -, rfl⟩ := Session.open_ok hr
  split
  · have hlog : p.settings.auditLog.Straight :=
      (Settings.load_ok hd hroot ho hload).2.2.child (by decide)
    exact (Store.widens_makeDirectories hlog.parent h hd hfree).free
  · exact hfree

/-- A run that ends in a failure has a verdict for it, or strays. -/
theorem runCommand_fails (hd : h.disk.Legal) (hio : h.OnlyIo) :
    Ends ((runCommand o).runOn h) (fun _ _ => True)
      fun f _ => (verdict f.cause).isSome = true ∨ Strays o h.disk f.cause := by
  have hverdict : ∀ c, (verdict c).isSome = true → (verdict c).isSome = true ∨ Strays o h.disk c :=
    fun _ => .inl
  have hloop : ¬h.disk.tree.LinkFree → ∀ q, (verdict (.linkLoop q)).isSome = true
      ∨ Strays o h.disk (.linkLoop q) := fun hlinks _ => .inr hlinks
  refine ends_get_bind (ends_ofExcept_bind
    (errs_overridesOf hverdict hloop fun hnone => .inr (.inl hnone)) fun overrides ho => ?_)
  refine ends_ofExcept_bind (fun e he => ?_) fun root hroot => ?_
  · obtain ⟨hnone, rfl⟩ := pathOf_error he
    exact .inr (.inr (.inl hnone))
  have hspelled := spelled_overridesOf hd ho
  -- opening the project can go wrong in its settings and in the directory of its journal
  have hopen : Ends ((Project.open root overrides).runOn h) (fun p h' => h'.OnlyIo)
      fun f _ => (verdict f.cause).isSome = true ∨ Strays o h.disk f.cause := by
    rw [Session.open_eq]
    refine ends_get_bind (ends_ofExcept_bind
      (Settings.errs_load hverdict hloop (.inr trivial) root overrides) fun settings hload => ?_)
    exact Session.ends_setUp hverdict hio hloop fun haudit hdeep =>
      .inr ⟨settings, settingsOf_ok ho hroot hload, haudit, hdeep⟩
  rw [runOn_bind]
  rcases hr : (Project.open root overrides).runOn h with ⟨f | p, h'⟩
  · rwa [hr] at hopen
  rw [hr] at hopen
  -- the command runs on a disk that opening may have added directories to, but no links
  obtain ⟨hs, hfree⟩ := sound_open hd (spelled_pathOf hroot) hspelled hr
  have hsettings := settingsOf_ok ho hroot (Session.open_ok hr).1
  have hends : Ends ((command o.command).runOn ⟨h', p⟩) (fun _ _ => True)
      fun f _ => (verdict f.cause).isSome = true ∨ Strays o h.disk f.cause := by
    rcases hcommand : (command o.command).runOn ⟨h', p⟩ with ⟨f | _, s⟩
    · exact kind_command hverdict hs hopen (fun hlinks => hloop (mt hfree hlinks))
        (fun affected heq => .inr (.inr (.inr ⟨affected, heq⟩))) (fun hsync v => .inr hsync)
        (fun hsync hprune => .inr ⟨hsync, p.settings, hsettings, hprune⟩) hcommand
    · trivial
  change Ends (((command o.command).runOn ⟨h', p⟩).1, ((command o.command).runOn ⟨h', p⟩).2.host) _ _
  rcases hcommand : (command o.command).runOn ⟨h', p⟩ with ⟨f | _, s⟩
  · rwa [hcommand] at hends
  · trivial

end CommandLine

end Provenance
