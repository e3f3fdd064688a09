/-
Which sources the ledger names.

Each source that the ledger names should be a source of the project. A rebuild
looks at the sources of an output only until it finds an affected one, and records
them all; an edit records a file without looking it up again. So a call can
publish a location that is no source, and it does so in the two ways that `Poisons`
lists and in no other.

The rules that tell the sources of a project never change, so what a call has
published stays what it is, and the statement about whole runs follows from the one
about a call. As long as no call poisons the ledger, a rebuild of nothing but
sources of the project never fails for a location that is none.
-/
import Provenance.Proofs.Session.Publication
import Provenance.Proofs.Update.Record

set_option autoImplicit false

namespace Provenance.Session

open Action Host

variable {s s' : Session} {c : Call} {f : Failure} {pending : Update.Pending}

/-! ## Rules -/

/-- The two sessions have sources of one project, with one set of rules. -/
def SameRules (s s' : Session) : Prop :=
  SourceSet.SameRules s.project.sources s'.project.sources

/-- The two sessions are set up in the same way: with the same settings, the same journal and the same
rules for sources. -/
structure SameSetup (s s' : Session) : Prop where
  rules : SameRules s s'
  settings : s'.project.settings = s.project.settings
  journal : s'.project.journal = s.project.journal

theorem stepwise_sameSetup : Stepwise SameSetup :=
  ⟨fun s => ⟨SourceSet.stepwise_sameRules.refl s.project.sources, rfl, rfl⟩,
    fun h h' => ⟨SourceSet.stepwise_sameRules.trans h.rules h'.rules, h'.settings.trans h.settings,
      h'.journal.trans h.journal⟩⟩

theorem sameSetup_onHost {α : Type} (act : Action Host α) : Respects SameSetup (onHost act) :=
  fun _ => ⟨⟨rfl, rfl⟩, rfl, rfl⟩

theorem sameSetup_track (f : TrackedFile) :
    Respects SameSetup (onSources (SourceSet.trackIfPresent · f)) :=
  fun s => ⟨SourceSet.respects_trackIfPresent s.host.disk f s.project.sources, rfl, rfl⟩

theorem sameSetup_unit (f : TrackedFile) :
    Respects SameSetup (onSources (SourceSet.unitOf · f)) :=
  fun s => ⟨SourceSet.respects_unitOf s.host.disk f s.project.sources, rfl, rfl⟩

theorem sameSetup_writeDown (e : Event) : Respects SameSetup (writeDown e) := by
  apply respects_bind stepwise_sameSetup (respects_get stepwise_sameSetup)
  intro s
  cases s.project.journal with
  | none => exact respects_pure stepwise_sameSetup _
  | some path => exact sameSetup_onHost _

theorem sameSetup_giveUp (operation cycleId : Text) (n : Nat) (f : Failure) :
    Respects SameSetup (giveUp operation cycleId n f) := by
  have hR := stepwise_sameSetup
  apply respects_bind hR (respects_get hR)
  intro s
  dsimp only
  split
  · apply respects_bind hR (sameSetup_onHost _)
    intro _
    exact respects_bind hR (sameSetup_writeDown _) fun _ => respects_throw hR _
  · exact respects_throw hR _

theorem sameSetup_conclude (operation : Text) (n : Nat) (report : Report) :
    Respects SameSetup (conclude operation n report) := by
  have hR := stepwise_sameSetup
  refine respects_bind hR (fun s => ⟨⟨rfl, rfl⟩, rfl, rfl⟩) fun _ => ?_
  exact respects_bind hR (sameSetup_writeDown _) fun _ => respects_pure hR _

theorem sameSetup_settle (operation cycleId : Text) (started : Int) (pending : Update.Pending) :
    Respects SameSetup (settle operation cycleId started pending) := by
  have hR := stepwise_sameSetup
  refine respects_bind hR (fun s => ⟨⟨rfl, rfl⟩, rfl, rfl⟩) fun _ => ?_
  apply respects_bind hR (respects_get hR)
  intro s
  apply respects_bind hR (sameSetup_onHost _)
  intro _
  apply respects_bind hR (sameSetup_onHost _)
  intro _
  exact respects_bind hR (sameSetup_onHost _) fun _ => respects_pure hR _

theorem sameRules_keys {keys : Except Failure (List Text)}
    (h : (affectedKeys c.affected).runOn s = (keys, s')) : SameRules s s' :=
  ((respects_affectedKeys stepwise_sameSetup sameSetup_track c.affected).of_run h).rules

theorem sameRules_steps (c : Call) (p : Project) (keys : List Text) :
    Respects Update.SameRules (c.steps p keys) := by
  cases c with
  | rebuild build affected => exact Update.sameRules_rebuildSteps build
  | edit resolve affected => exact Update.sameRules_editSteps resolve

theorem Call.Declines.sameSetup (h : c.Declines s f s') : SameSetup s s' :=
  ⟨sameRules_keys h, h.sameLedger.2.2.1, h.sameLedger.2.2.2⟩

theorem Call.Aborts.sameSetup (h : c.Aborts s f s') : SameSetup s s' := by
  have hsame := h.sameLedger
  obtain ⟨keys, s₁, hk, hu⟩ := h
  obtain ⟨g, cycle, h', hsteps, rfl, -⟩ := underway_error hu
  have hr := (sameRules_steps c s₁.project keys).of_run hsteps
  exact ⟨SourceSet.stepwise_sameRules.trans (sameRules_keys hk) hr, hsame.2.2.1, hsame.2.2.2⟩

theorem Call.Pends.sameSetup (h : c.Pends s pending s') : SameSetup s s' := by
  have hsame := h.sameLedger
  obtain ⟨keys, s₁, started, hk, hu⟩ := h
  obtain ⟨cycle, hsteps, -, rfl⟩ := underway_ok hu
  have hr := (sameRules_steps c s₁.project keys).of_run hsteps
  exact ⟨SourceSet.stepwise_sameRules.trans (sameRules_keys hk) hr, hsame.2.2.1, hsame.2.2.2⟩

/-- A call leaves the setup as it is, however it ends. -/
theorem sameSetup_run (c : Call) : Respects SameSetup c.run := by
  intro s
  rcases c.outcomes s with ⟨f, s', hd⟩ | ⟨f, s', ha⟩ | ⟨pending, s', hp⟩
  · rw [hd.run_eq]
    exact hd.sameSetup
  · obtain ⟨cycleId, n, hrun⟩ := ha.run_eq
    rw [hrun]
    exact stepwise_sameSetup.trans ha.sameSetup (sameSetup_giveUp _ _ _ _ s')
  · obtain ⟨cycleId, started, n, hrun⟩ := hp.run_eq
    have hsettle := sameSetup_settle c.operation cycleId started pending s'
    rw [hrun]
    rcases hr : (settle c.operation cycleId started pending).runOn s' with ⟨f | report, s''⟩
    · rw [hr] at hsettle
      exact stepwise_sameSetup.trans hp.sameSetup
        (stepwise_sameSetup.trans hsettle (sameSetup_giveUp _ _ _ _ s''))
    · rw [hr] at hsettle
      exact stepwise_sameSetup.trans hp.sameSetup
        (stepwise_sameSetup.trans hsettle (sameSetup_conclude _ _ _ s''))

/-- So does whatever happens to a session. -/
theorem sameSetup_perform (s : Session) (a : Act) : SameSetup s (a.perform s) := by
  cases a with
  | call c => exact sameSetup_run c s
  | lookup raw => exact respects_lookup stepwise_sameSetup sameSetup_track sameSetup_unit raw s
  | dispose => exact ⟨⟨rfl, rfl⟩, rfl, rfl⟩
  | retrack files units => exact ⟨⟨rfl, rfl⟩, rfl, rfl⟩
  | meanwhile h => exact ⟨⟨rfl, rfl⟩, rfl, rfl⟩

/-- What a project was opened with, a reachable session still has: the rules of its settings, and a
journal in its directory of records if its settings ask for one. -/
theorem Reachable.setup (hs : Reachable s) : s.project.sources.rules = s.project.settings.sources
    ∧ s.project.journal = if s.project.settings.audit then some s.project.settings.auditLog else none := by
  induction hs with
  | @opened root o h s hd hroot ho hopen =>
    obtain ⟨p, h', hr, rfl⟩ := openOn_eq_some hopen
    obtain ⟨sourceRoot, -, hsources⟩ := sources_open hr
    exact ⟨congrArg SourceSet.rules hsources, (open_ok hr).2.2.1⟩
  | @after s a _ _ ih =>
    have hsame := sameSetup_perform s a
    rw [hsame.rules.2, hsame.settings, hsame.journal]
    exact ih

/-- The sources of a reachable session are below a straight path. -/
theorem Reachable.straight_root (hs : Reachable s) : s.project.sources.root.Straight := by
  induction hs with
  | @opened root o h s hd hroot ho hopen =>
    obtain ⟨p, h', hr, rfl⟩ := openOn_eq_some hopen
    obtain ⟨sourceRoot, habsolute, hsources⟩ := sources_open hr
    have hproject := (Settings.load_ok hd hroot ho (open_ok hr).1).1
    show p.sources.root.Straight
    rw [hsources]
    exact Disk.straight_of_absolute hd hproject.spelled habsolute
  | after a _ _ ih =>
    rw [(sameSetup_perform _ a).rules.1]
    exact ih

/-! ## Clean ledgers -/

/-- A location is that of a source of the project. -/
def Resolves (s : Session) (p : Path) : Prop := s.project.sources.resolve? p.text ≠ none

/-- All sources that the ledger names are sources of the project. -/
def Clean (s : Session) : Prop := ∀ p, s.project.ledger.entries.Names p → s.Resolves p

theorem SameRules.resolves_iff (h : SameRules s s') (p : Path) : s'.Resolves p ↔ s.Resolves p := by
  rw [Resolves, Resolves, SourceSet.SameRules.resolve? h]

theorem clean_iff_of_same (hl : s'.project.ledger.entries = s.project.ledger.entries)
    (hr : SameRules s s') : s'.Clean ↔ s.Clean := by
  simp only [Clean, hl, hr.resolves_iff]

namespace Call

/-- The steps of a call record a location. The session is the one in which the cycle of the call
begins. -/
def Records (s : Session) (keys : List Text) (p : Path) : Call → Prop
  | .rebuild build _ => ∃ o ∈ build, p ∈ o.sources
  | .edit resolve _ =>
    ∃ files cycle f, (Update.Cycle.onSources SourceSet.listed).runOn s.atStart = (.ok files, cycle)
      ∧ Update.Produces s.project.layout resolve (files.filter fun f => keys.contains f.path) cycle f
      ∧ p = f.location

/-- The steps of a call come past a location that is no source of the project: a rebuild has found an
affected source before it, and an edit does not look. -/
def ComesPast (s : Session) (keys : List Text) : Call → Prop
  | .rebuild build _ => ∃ o ∈ build, Update.Overlooked s.project.sources keys o.sources
  | .edit resolve affected =>
    ∃ p, (Call.edit resolve affected).Records s keys p ∧ s.project.sources.resolve? p.text = none

/-- A call publishes a location that is no source of the project. -/
def Poisons (c : Call) (s : Session) : Prop :=
  ∃ keys s₁ started pending s', (affectedKeys c.affected).runOn s = (.ok keys, s₁)
    ∧ (underway c.operation (c.steps s₁.project keys)).runOn s₁ = (.ok (started, pending), s')
    ∧ c.ComesPast s₁ keys

/-- What is pending in the end names what the steps have recorded. -/
theorem names_pending {keys : List Text} {cycle : Update.Cycle}
    (h : (c.steps s.project keys).runOn s.atStart = (.ok (), cycle)) (p : Path) :
    cycle.pending.entries.Names p ↔ c.Records s keys p := by
  have hnone : ¬ s.atStart.pending.entries.Names p := Entries.not_names_nil p
  cases c with
  | rebuild build affected =>
    rw [(Update.rebuildSteps_ok h).2 p]
    simp [hnone, Records]
  | edit resolve affected =>
    obtain ⟨files, cycle₁, hlisted, hrest⟩ := bind_ok_iff.mp h
    have hsame : cycle₁.pending.entries = s.atStart.pending.entries := by
      rw [Update.Cycle.runOn_onSources] at hlisted
      rw [← (Prod.mk.inj hlisted).2]
    rw [Update.editSources_ok hrest p, hsame, Records, hlisted]
    simp only [hnone, false_or]
    constructor
    · rintro ⟨f, hf, hp⟩
      exact ⟨files, cycle₁, f, rfl, hf, hp⟩
    · rintro ⟨_, _, f, heq, hf, hp⟩
      obtain ⟨rfl, rfl⟩ : files = _ ∧ cycle₁ = _ := by simpa using heq
      exact ⟨f, hf, hp⟩

/-- Steps that succeed have come past every recorded location that is no source of the project. -/
theorem comesPast_iff {keys : List Text} {cycle : Update.Cycle}
    (h : (c.steps s.project keys).runOn s.atStart = (.ok (), cycle)) :
    c.ComesPast s keys ↔ ∃ p, c.Records s keys p ∧ s.project.sources.resolve? p.text = none := by
  cases c with
  | edit resolve affected => exact Iff.rfl
  | rebuild build affected =>
    have hlooked := (Update.rebuildSteps_ok h).1
    constructor
    · rintro ⟨o, ho, hover⟩
      obtain ⟨b, hb⟩ := hlooked o ho
      obtain ⟨p, hp, hnone⟩ := (Update.overlooked_iff hb).mp hover
      exact ⟨p, ⟨o, ho, hp⟩, hnone⟩
    · rintro ⟨p, ⟨o, ho, hp⟩, hnone⟩
      obtain ⟨b, hb⟩ := hlooked o ho
      exact ⟨o, ho, (Update.overlooked_iff hb).mpr ⟨p, hp, hnone⟩⟩

/-- A call on a clean session leaves one exactly if it does not poison it. -/
theorem clean_run_iff (hs : s.Clean) : (c.run.runOn s).2.Clean ↔ ¬ c.Poisons s := by
  have hrules := (sameSetup_run c s).rules
  rcases c.outcomes s with ⟨f, s', hd⟩ | ⟨f, s', ha⟩ | ⟨pending, s', hp⟩
  · have hclean : (c.run.runOn s).2.Clean := by
      refine (clean_iff_of_same ?_ hrules).mpr hs
      rw [hd.run_eq, hd.sameLedger.1]
    apply iff_of_true hclean
    rintro ⟨keys, s₁, started, pending, s'', hk, -⟩
    rw [Declines, hk] at hd
    simp at hd
  · obtain ⟨f', s'', hrun, hsame⟩ := ha.run
    have hclean : (c.run.runOn s).2.Clean := by
      refine (clean_iff_of_same ?_ hrules).mpr hs
      rw [hrun, hsame.1]
    apply iff_of_true hclean
    rintro ⟨keys, s₁, started, pending, s'', hk, hu, -⟩
    obtain ⟨keys', s₁', hk', hu'⟩ := ha
    obtain ⟨rfl, rfl⟩ : keys = keys' ∧ s₁ = s₁' := by simpa [hk] using hk'
    simp [hu] at hu'
  · have hledger := hp.ledger_run
    obtain ⟨keys, s₁, started, hk, hu⟩ := hp
    obtain ⟨cycle, hsteps, rfl, rfl⟩ := underway_ok hu
    have hkrules := sameRules_keys hk
    have hpoisons : c.Poisons s ↔ c.ComesPast s₁ keys := by
      constructor
      · rintro ⟨keys', s₁', started', pending', s'', hk', -, hpast⟩
        obtain ⟨rfl, rfl⟩ : keys = keys' ∧ s₁ = s₁' := by simpa [hk] using hk'
        exact hpast
      · exact fun hpast => ⟨keys, s₁, started, _, _, hk, hu, hpast⟩
    rw [hpoisons, comesPast_iff hsteps, Clean, hledger]
    simp only [Ledger.publish, Resolves, names_pending hsteps, SourceSet.SameRules.resolve? hrules,
      SourceSet.SameRules.resolve? hkrules]
    simp

end Call

/-- An act that poisons a session is a call that does. -/
def Act.Poisons (s : Session) : Act → Prop
  | .call c => c.Poisons s
  | _ => False

/-- An act on a clean session leaves one exactly if it does not poison it. -/
theorem Clean.perform_iff (hs : s.Clean) (a : Act) : (a.perform s).Clean ↔ ¬ a.Poisons s := by
  have hrules := (sameSetup_perform s a).rules
  cases a with
  | call c => exact c.clean_run_iff hs
  | lookup raw =>
    have hsame := respects_lookup stepwise_sameLedger (fun _ => respects_onSources _)
      (fun _ => respects_onSources _) raw s
    refine iff_of_true ((clean_iff_of_same ?_ hrules).mpr hs) id
    exact congrArg Ledger.entries hsame.1
  | dispose => exact iff_of_true (fun p hp => absurd hp (Entries.not_names_nil p)) id
  | retrack files units => exact iff_of_true ((clean_iff_of_same rfl hrules).mpr hs) id
  | meanwhile h => exact iff_of_true ((clean_iff_of_same rfl hrules).mpr hs) id

/-! ## Runs -/

/-- The session after several acts. -/
def performAll (s : Session) (acts : List Act) : Session := acts.foldl Act.perform s

/-- A run of acts passes through clean sessions alone exactly if none of the acts poisons the session
that it finds. -/
theorem clean_performAll_iff (hs : s.Clean) (acts : List Act) :
    (∀ before after, acts = before ++ after → (s.performAll before).Clean)
      ↔ ∀ before a after, acts = before ++ a :: after → ¬ a.Poisons (s.performAll before) := by
  have hcons (s : Session) (a : Act) (acts : List Act) :
      s.performAll (a :: acts) = (a.perform s).performAll acts := rfl
  induction acts generalizing s with
  | nil =>
    refine iff_of_true (fun before after h => ?_) fun before a after h => by simp at h
    obtain ⟨rfl, -⟩ : before = [] ∧ after = [] := by simpa using h.symm
    exact hs
  | cons a acts ih =>
    constructor
    · intro h before b after heq
      have hfirst := h [a] acts rfl
      cases before with
      | nil =>
        obtain ⟨rfl, -⟩ : a = b ∧ acts = after := by simpa using heq
        exact (hs.perform_iff a).mp hfirst
      | cons a' before =>
        obtain ⟨rfl, rfl⟩ : a = a' ∧ acts = before ++ b :: after := by simpa using heq
        refine (ih hfirst).mp (fun before' after' h' => ?_) before b after rfl
        exact h (a :: before') after' (by rw [h']; rfl)
    · intro h before after heq
      have hfirst : (a.perform s).Clean := (hs.perform_iff a).mpr (h [] a acts rfl)
      cases before with
      | nil => exact hs
      | cons a' before =>
        obtain ⟨rfl, rfl⟩ : a = a' ∧ acts = before ++ after := by simpa using heq
        refine (ih hfirst).mpr (fun before' b after' h' => ?_) before after rfl
        exact h (a :: before') b after' (by rw [h']; rfl)

/-! ## Rebuilds of nothing but sources -/

theorem blames_affectedKeys (affected : List Affected) :
    Blames Update.NotUntracked (affectedKeys affected) := by
  induction affected with
  | nil => exact blames_pure _
  | cons a rest ih =>
    refine blames_bind blames_get fun s => ?_
    cases a.file? s.project.sources with
    | none => exact ih
    | some f =>
      refine blames_bind (fun s => ?_) fun _ => blames_bind ih fun _ => blames_pure _
      rw [runOn_onSources]
      intro g s' hr
      apply Update.notUntracked_of_isLook
      exact SourceSet.blames_trackIfPresent s.host.disk f s.project.sources g _
        (Prod.ext (Prod.mk.inj hr).1 rfl)

theorem blames_writeDown (e : Event) : Blames IsCall (writeDown e) := by
  refine blames_bind blames_get fun s => ?_
  cases s.project.journal with
  | none => exact blames_pure _
  | some path =>
    apply blames_within
    rw [Journal.append, Journal.appendText]
    exact blames_call _ _

/-- A cycle that gives up fails with what it failed with before, or because of the journal. -/
theorem notUntracked_giveUp {operation cycleId : Text} {n : Nat} (hf : Update.NotUntracked f) :
    Blames Update.NotUntracked (giveUp operation cycleId n f) := by
  refine blames_bind blames_get fun s => ?_
  dsimp only
  split
  · refine blames_bind (blames_within ?_) fun _ => ?_
    · exact fun h g h' hr => by simp at hr
    · apply blames_bind ((blames_writeDown _).imp fun _ => Update.notUntracked_of_isCall)
      intro _
      exact blames_throw hf
  · exact blames_throw hf

theorem notUntracked_settle (operation cycleId : Text) (started : Int) (pending : Update.Pending) :
    Blames Update.NotUntracked (settle operation cycleId started pending) := by
  refine blames_bind (blames_modify _) fun _ => blames_bind blames_get fun s => ?_
  refine blames_bind (blames_within (Update.blames_sweep (fun f hf p hp => ?_) (fun names => ?_) _))
    fun _ => ?_
  · rcases hf.cases with ⟨message, rfl⟩ | rfl <;> simp at hp
  · exact blames_ofExcept fun e _ p hp => by simp at hp
  · refine blames_bind (blames_within fun h g h' hr => by simp at hr) fun _ => ?_
    exact blames_bind (blames_within fun h g h' hr => by simp at hr) fun _ => blames_pure _

theorem notUntracked_conclude (operation : Text) (n : Nat) (report : Report) :
    Blames Update.NotUntracked (conclude operation n report) := by
  refine blames_bind (blames_modify _) fun _ => ?_
  apply blames_bind ((blames_writeDown _).imp fun _ => Update.notUntracked_of_isCall)
  intro _
  exact blames_pure _

/-- The steps of a rebuild of nothing but sources of the project, on a clean session, fail in some
other way, and so does a cycle of them. -/
theorem Call.Aborts.notUntracked {build : Build} {affected : List Affected} (hs : s.Clean)
    (hown : ∀ o ∈ build, ∀ p ∈ o.sources, s.Resolves p)
    (ha : (Call.rebuild build affected).Aborts s f s') : Update.NotUntracked f := by
  obtain ⟨keys, s₁, hk, hu⟩ := ha
  obtain ⟨g, cycle, h', hsteps, -, hends⟩ := underway_error hu
  have hrules := sameRules_keys hk
  have hclean : s₁.Clean := (clean_iff_of_same (by rw [(sameLedger_keys hk).1]) hrules).mpr hs
  have hgoes : Ends ((Update.rebuildSteps s₁.project.layout s₁.project.ledger keys build).runOn
      s₁.atStart) (fun _ c => c.sources = s₁.atStart.sources) (fun f _ => Update.NotUntracked f) :=
    Update.ends_rebuildSteps (fun o ho p hp => (hrules.resolves_iff p).mpr (hown o ho p hp)) hclean
  rw [show (Update.rebuildSteps s₁.project.layout s₁.project.ledger keys build).runOn s₁.atStart
    = (.error g, cycle) from hsteps] at hgoes
  rcases hends with ⟨lines, -, rfl⟩ | hrollback
  · -- the failure is the first one, or an abort in its place
    have hg : Update.NotUntracked g := hgoes
    unfold Update.Cycle.failureOf
    split
    · exact fun p hp => by simp at hp
    · exact hg
  · exact Update.notUntracked_of_isCall (Update.blames_rollback _ _ _ _ hrollback)

/-- A rebuild of nothing but sources of the project, on a clean session, does not fail for a location
that is none. -/
theorem Clean.rebuild {build : Build} {affected : List Affected} (hs : s.Clean)
    (hown : ∀ o ∈ build, ∀ p ∈ o.sources, s.Resolves p)
    (hr : (Call.rebuild build affected).run.runOn s = (.error f, s')) :
    Update.NotUntracked f := by
  rcases (Call.rebuild build affected).outcomes s
    with ⟨g, s₁, hd⟩ | ⟨g, s₁, ha⟩ | ⟨pending, s₁, hp⟩
  · rw [hd.run_eq] at hr
    obtain ⟨rfl, -⟩ : g = f ∧ s₁ = s' := by simpa using hr
    exact blames_affectedKeys _ _ _ _ hd
  · obtain ⟨cycleId, n, hrun⟩ := ha.run_eq
    rw [hrun] at hr
    exact notUntracked_giveUp (ha.notUntracked hs hown) _ _ _ hr
  · obtain ⟨cycleId, started, n, hrun⟩ := hp.run_eq
    rw [hrun] at hr
    rcases hsettle : (settle (Call.rebuild build affected).operation cycleId started pending).runOn s₁
      with ⟨g | report, s₂⟩
    · rw [hsettle] at hr
      exact notUntracked_giveUp (notUntracked_settle _ _ _ _ _ _ _ hsettle) _ _ _ hr
    · rw [hsettle] at hr
      exact notUntracked_conclude _ _ _ _ _ _ hr

/-- From the opening of a project on, a run of acts passes through clean sessions alone exactly if no
call of it publishes a location that it came past without looking; and a clean session that it ends
in takes any rebuild of nothing but sources of the project without complaint about a source. -/
theorem clean_from_opening {root : Path} {o : Overrides} {h : Host} (hopen : openOn root o h = some s)
    (acts : List Act) :
    ((∀ before after, acts = before ++ after → (s.performAll before).Clean)
      ↔ ∀ before a after, acts = before ++ a :: after → ¬ a.Poisons (s.performAll before))
    ∧ ((s.performAll acts).Clean → ∀ build affected,
      (∀ o ∈ build, ∀ p ∈ o.sources, (s.performAll acts).Resolves p) →
      ∀ f s', (Call.rebuild build affected).run.runOn (s.performAll acts) = (.error f, s') →
        ∀ p, f.cause ≠ .untracked p) := by
  have hclean : s.Clean := by
    unfold openOn at hopen
    rcases hr : (Project.open root o).runOn h with ⟨f | p, h'⟩
    · simp [hr] at hopen
    rw [hr] at hopen
    obtain rfl := Option.some.inj hopen
    intro q hq
    rw [(open_ok hr).2.1] at hq
    exact absurd hq (Entries.not_names_nil q)
  refine ⟨clean_performAll_iff hclean acts, fun hend build affected hown f s' hr => ?_⟩
  exact hend.rebuild hown hr

/-- The small project, from its opening on. -/
theorem clean_from_opening_small : ∃ s, small? [] = some s ∧ ∀ acts : List Act,
    (∀ before after, acts = before ++ after → (s.performAll before).Clean)
      ↔ ∀ before a after, acts = before ++ a :: after → ¬ a.Poisons (s.performAll before) := by
  obtain ⟨s, hs⟩ := Option.isSome_iff_exists.mp (show (small? []).isSome = true by decide +kernel)
  exact ⟨s, hs, fun acts => (clean_from_opening hs acts).1⟩

/-- A file of the project that is no source. -/
def stray : Path := ⟨.root, ["p".toList, "lib".toList, "B.kt".toList]⟩

/-- A rebuild of an artifact from the source of the project, which is affected, and from the stray
file after it. -/
def mixed : Call :=
  .rebuild [⟨"A.class".toList, [smallSource, stray]⟩] [.spelled "src/A.kt".toList]

/-- A rebuild that finds its first source affected publishes the second one without looking at it; the
next rebuild, of sources alone, fails for it. -/
theorem poisoned_by_second_source :
    ∃ s, small? [] = some s ∧ ¬ (s.performAll [.call mixed]).Clean
      ∧ (∀ o ∈ smallBuild, ∀ p ∈ o.sources, (s.performAll [.call mixed]).Resolves p)
      ∧ ∃ f s', (Call.rebuild smallBuild []).run.runOn (s.performAll [.call mixed]) = (.error f, s')
        ∧ f.cause = .untracked stray := by
  have hrun : ((small? []).map fun s =>
      let s' := s.performAll [.call mixed]
      (s'.project.ledger.entries.any fun e => e.2.contains stray)
        && (s'.project.sources.resolve? stray.text).isNone
        && (smallBuild.all fun o => o.sources.all fun p => (s'.project.sources.resolve? p.text).isSome)
        && decide (Ends ((Call.rebuild smallBuild []).run.runOn s') (fun _ _ => False)
          (fun f _ => f.cause = .untracked stray))) = some true := by
    decide +kernel
  obtain ⟨s, hs, h⟩ := Option.map_eq_some_iff.mp hrun
  simp only [Bool.and_eq_true, List.any_eq_true, List.all_eq_true, Option.isNone_iff_eq_none,
    Option.isSome_iff_ne_none, decide_eq_true_eq] at h
  obtain ⟨⟨⟨⟨e, he, hstray⟩, hnone⟩, hsome⟩, hend⟩ := h
  refine ⟨s, hs, fun hclean => hclean stray ⟨e, he, by simpa using hstray⟩ hnone, hsome, ?_⟩
  rcases hr : (Call.rebuild smallBuild []).run.runOn (s.performAll [.call mixed]) with ⟨f | r, s'⟩
  · rw [hr] at hend
    exact ⟨f, s', rfl, hend⟩
  · rw [hr] at hend
    exact hend.elim

end Provenance.Session
