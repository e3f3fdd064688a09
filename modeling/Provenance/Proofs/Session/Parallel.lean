/-
Sessions side by side.

Two sessions that have much in common go through the same calls: on kindred hosts and with
kindred sources, settings and recorded entries the same. They may differ in how many cycles
they have counted and how often they have published, and so in the names of their cycles.
What a call then gives is the same on both sides but for that name, and the sessions stay
kindred. This holds however the call ends.

Where a call reads files, these have to be readable on both sides when the call comes to
them. Only edits and lookups read any.
-/
import Provenance.Proofs.Session.Resolution
import Provenance.Proofs.Update.Parallel

set_option autoImplicit false

namespace Provenance.Session

open Action Host

/-! ## Kinship -/

/-- The name of a cycle. -/
def cycleName (n : Nat) : Text := "cycle-".toList ++ Text.ofNat n

/-- What sessions have in common: besides what updates have, how they count and what they have last
reported. -/
structure Kinship extends Update.Kinship where
  counts : Nat → Nat → Prop
  lasts : Option (Text × Text) → Option (Text × Text) → Prop

/-- The calls that a session makes keep the kinship, with the same results on both sides. What is
written down may differ in the name of the cycle. -/
structure Kinship.Lawful (K : Kinship) : Prop extends K.toKinship.Lawful where
  readClock : Lockstep K.hosts Eq readClock readClock
  track : ∀ {h h'}, K.hosts h h' → ∀ f,
    Lockstep K.sources Eq (SourceSet.trackIfPresent h.disk f) (SourceSet.trackIfPresent h'.disk f)
  append : ∀ {p : Path} (e : Event) {n n' : Nat}, p.isAbsolute = true → K.counts n n' →
    Lockstep K.hosts Eq (Journal.append p { e with cycleId := cycleName n })
      (Journal.append p { e with cycleId := cycleName n' })
  next : ∀ {n n' : Nat}, K.counts n n' → K.counts (n + 1) (n' + 1)
  reported : ∀ last, K.lasts last last

/-- Two sessions that have recorded the same. -/
structure Kinship.Sessions (K : Kinship) (s s' : Session) : Prop where
  hosts : K.hosts s.host s'.host
  sources : K.sources s.project.sources s'.project.sources
  settings : s'.project.settings = s.project.settings
  journal : s'.project.journal = s.project.journal
  entries : s'.project.ledger.entries = s.project.ledger.entries
  generation : K.counts s.project.ledger.generation s'.project.ledger.generation
  cycles : K.counts s.project.cycles s'.project.cycles
  last : K.lasts s.project.last s'.project.last
  layout : s.project.layout.Sound
  absolute : ∀ p, s.project.journal = some p → p.isAbsolute = true

/-- Two reports that are the same but for the names of their cycles. -/
def Kinship.Reports (K : Kinship) (r r' : Report) : Prop :=
  ∃ n n', K.counts n n' ∧ r.cycleId = cycleName n ∧ r' = { r with cycleId := cycleName n' }

variable {K : Kinship} {α β : Type} {P : α → β → Prop} {s s' : Session} {n n' count : Nat}
  {operation : Text} {steps steps' : Action Update.Cycle Unit} {c : Call} {f : TrackedFile}

theorem Kinship.Sessions.layout_eq (h : K.Sessions s s') : s'.project.layout = s.project.layout := by
  rw [Project.layout, Project.layout, h.settings]

/-! ## Parts of a session -/

theorem lockstep_onHost {act : Action Host α} {act' : Action Host β} (h : Lockstep K.hosts P act act') :
    Lockstep K.Sessions P (onHost act) (onHost act') :=
  lockstep_within (fun _ _ hs => hs.hosts) (fun _ _ _ _ hs hh => { hs with hosts := hh }) h

theorem abreast_onSources {act : Disk → Action SourceSet α} {act' : Disk → Action SourceSet β}
    (hs : K.Sessions s s') (h : Lockstep K.sources P (act s.host.disk) (act' s'.host.disk)) :
    Abreast K.Sessions P ((onSources act).runOn s) ((onSources act').runOn s') := by
  obtain ⟨hmatch, hafter⟩ := h _ _ hs.sources
  exact ⟨hmatch, { hs with sources := hafter }⟩

/-- Both sessions publish the same. -/
theorem lockstep_publish (hK : K.Lawful) (entries : Entries) :
    Lockstep K.Sessions Eq (change fun p => { p with ledger := p.ledger.publish entries })
      (change fun p => { p with ledger := p.ledger.publish entries }) :=
  lockstep_modify fun _ _ hs => { hs with entries := rfl, generation := hK.next hs.generation }

/-- Both sessions have reported the same. -/
theorem lockstep_report (hK : K.Lawful) (last : Option (Text × Text)) :
    Lockstep K.Sessions Eq (change fun p => { p with last := last })
      (change fun p => { p with last := last }) :=
  lockstep_modify fun _ _ hs => { hs with last := hK.reported last }

section Lawful

variable (hK : K.Lawful)
include hK

/-- An event is written down on both sides, with the name that its cycle has there. -/
theorem lockstep_writeDown (e : Event) (hn : K.counts n n') :
    Lockstep K.Sessions Eq (writeDown { e with cycleId := cycleName n })
      (writeDown { e with cycleId := cycleName n' }) := by
  refine lockstep_get_bind fun s s' hs => ?_
  rw [hs.journal]
  cases hj : s.project.journal with
  | none => exact abreast_ok rfl hs
  | some p => exact lockstep_onHost (hK.append e (hs.absolute p hj) hn) s s' hs

/-! ## A cycle in three parts -/

/-- Both sessions begin a cycle at the same time. -/
theorem Kinship.Sessions.begun (hs : K.Sessions s s') :
    s'.host.clock.now = s.host.clock.now ∧ K.Sessions s.begun s'.begun := by
  obtain ⟨hnow, hhosts⟩ := Abreast.of_ok (hK.readClock _ _ hs.hosts)
  exact ⟨hnow.symm, { hs with hosts := hhosts, cycles := hK.next hs.cycles }⟩

theorem Kinship.Sessions.atStart (hs : K.Sessions s s') : K.Cycles s.atStart s'.atStart :=
  Update.Kinship.cycles_none (hs.begun hK).2.hosts hs.sources

/-- The sessions after the steps of two cycles. -/
theorem Kinship.Sessions.after (hs : K.Sessions s s') {d d' : Update.Cycle} {h h' : Host}
    (hd : K.Cycles d d') (hh : K.hosts h h') :
    K.Sessions (s.after { d with host := h }) (s'.after { d' with host := h' }) :=
  { (hs.begun hK).2 with hosts := hh, sources := hd.sources }

/-- Steps that go on abreast come to the same to publish, or are taken back. -/
theorem abreast_runSteps (hs : K.Sessions s s')
    (hsteps : Abreast K.Cycles Eq (steps.runOn s.atStart) (steps'.runOn s'.atStart)) :
    Abreast K.Sessions Eq ((runSteps operation steps).runOn s.begun)
      ((runSteps operation steps').runOn s'.begun) := by
  rw [runSteps_eq, runSteps_eq]
  generalize steps.runOn s.atStart = r at hsteps ⊢
  generalize steps'.runOn s'.atStart = r' at hsteps ⊢
  obtain ⟨x, d⟩ := r
  obtain ⟨x', d'⟩ := r'
  obtain ⟨hmatch, hd⟩ := hsteps
  dsimp only at hmatch hd
  cases hmatch with
  | ok _ => exact abreast_ok hd.pending.symm (hs.after hK hd hd.hosts)
  | error g =>
    -- the same has been noted, so the same is taken back
    have hback := Update.lockstep_rollback hK.mirroring hd.created hd.createdDirs _ _ hd.hosts
    dsimp only
    rw [hd.pending]
    generalize (Update.Cycle.rollback d.pending).runOn d.host = b at hback ⊢
    generalize (Update.Cycle.rollback d.pending).runOn d'.host = b' at hback ⊢
    obtain ⟨y, h⟩ := b
    obtain ⟨y', h'⟩ := b'
    obtain ⟨hmatch, hh⟩ := hback
    dsimp only at hmatch hh
    cases hmatch with
    | error e => exact abreast_error (hs.after hK hd hh)
    | ok hlines =>
      subst hlines
      exact abreast_error (hs.after hK hd hh)

/-- What is pending is published, swept for and reported in lockstep. -/
theorem lockstep_settle (hn : K.counts n n') (started : Int) (pending : Update.Pending) :
    Lockstep K.Sessions K.Reports (settle operation (cycleName n) started pending)
      (settle operation (cycleName n') started pending) := by
  refine lockstep_bind_eq (lockstep_publish hK _) fun _ => lockstep_get_bind fun s s' hs => ?_
  dsimp only
  rw [hs.layout_eq, hs.entries]
  have habs := (hs.layout.output.straight hs.layout.root).isAbsolute
  refine lockstep_bind_eq (lockstep_onHost (Update.lockstep_sweep hK.mirroring habs)) (fun swept => ?_)
    s s' hs
  refine lockstep_bind_eq (lockstep_onHost hK.readClock) fun ended => ?_
  refine lockstep_bind_eq (lockstep_onHost hK.readClock) fun written => ?_
  exact lockstep_pure ⟨n, n', hn, rfl, rfl⟩

theorem lockstep_conclude {r r' : Report} (hr : K.Reports r r') :
    Lockstep K.Sessions K.Reports (conclude operation count r) (conclude operation count r') := by
  have hr' := hr
  obtain ⟨n, n', hn, hid, rfl⟩ := hr
  refine lockstep_bind_eq (lockstep_report hK _) fun _ => ?_
  have hevent : eventOfReport count r = { eventOfReport count r with cycleId := cycleName n } := by
    rw [← hid]
    rfl
  refine lockstep_bind_eq (hevent ▸ lockstep_writeDown hK (eventOfReport count r) hn) fun _ => ?_
  exact lockstep_pure hr'

theorem lockstep_giveUp {P : Report → Report → Prop} (hn : K.counts n n') (f : Failure) :
    Lockstep K.Sessions P (giveUp operation (cycleName n) count f)
      (giveUp operation (cycleName n') count f) := by
  refine lockstep_get_bind fun s s' hs => ?_
  dsimp only
  rw [hs.journal]
  split
  · refine lockstep_bind_eq (lockstep_onHost hK.readClock) (fun now => ?_) s s' hs
    refine lockstep_bind_eq (lockstep_writeDown hK
      (eventOfFailure operation (cycleName n) (Timestamp.ofReading now) count f) hn) fun _ => ?_
    exact lockstep_throw f
  · exact lockstep_throw f s s' hs

/-- Cycles whose steps go on abreast do so to their ends. -/
theorem abreast_cycle (hs : K.Sessions s s')
    (hsteps : Abreast K.Cycles Eq (steps.runOn s.atStart) (steps'.runOn s'.atStart)) :
    Abreast K.Sessions K.Reports ((cycle operation count steps).runOn s)
      ((cycle operation count steps').runOn s') := by
  have hnext := hK.next hs.cycles
  have hrun : Abreast K.Sessions Eq ((runSteps operation steps).runOn s.begun)
      ((runSteps operation steps').runOn s'.begun) := abreast_runSteps hK hs hsteps
  have hpublish : Abreast K.Sessions K.Reports
      ((publish operation (nextCycle s.project) steps).runOn
        { s with project := { s.project with cycles := s.project.cycles + 1 } })
      ((publish operation (nextCycle s'.project) steps').runOn
        { s' with project := { s'.project with cycles := s'.project.cycles + 1 } }) := by
    rw [publish_eq, publish_eq, (hs.begun hK).1]
    generalize (runSteps operation steps).runOn s.begun = r at hrun ⊢
    generalize (runSteps operation steps').runOn s'.begun = r' at hrun ⊢
    obtain ⟨x, t⟩ := r
    obtain ⟨x', t'⟩ := r'
    obtain ⟨hmatch, ht⟩ := hrun
    dsimp only at hmatch ht
    cases hmatch with
    | error f => exact abreast_error ht
    | ok hpending =>
      subst hpending
      exact lockstep_settle hK hnext s.host.clock.now _ t t' ht
  rw [cycle_eq, cycle_eq]
  generalize (publish operation (nextCycle s.project) steps).runOn _ = r at hpublish ⊢
  generalize (publish operation (nextCycle s'.project) steps').runOn _ = r' at hpublish ⊢
  obtain ⟨x, t⟩ := r
  obtain ⟨x', t'⟩ := r'
  obtain ⟨hmatch, ht⟩ := hpublish
  dsimp only at hmatch ht
  cases hmatch with
  | error f => exact lockstep_giveUp hK hnext f t t' ht
  | ok hreport => exact lockstep_conclude hK hreport t t' ht

end Lawful

/-! ## Calls -/

/-- The steps of a call read a file as it is on a disk. The session is the one in which the cycle of
the call begins. -/
def Call.StepsRead (s : Session) (keys : List Text) (f : TrackedFile) (d : Disk) : Call → Prop
  | .rebuild _ _ => False
  | .edit resolve _ => ∃ files cycle cycle',
    (Update.Cycle.onSources SourceSet.listed).runOn s.atStart = (.ok files, cycle)
      ∧ ComesTo (Update.editSource s.project.layout resolve)
        (files.filter fun f => keys.contains f.path) cycle f cycle'
      ∧ d = cycle'.host.disk

/-- A call reads a file as it is on a disk. -/
def Call.Reads (c : Call) (s : Session) (f : TrackedFile) (d : Disk) : Prop :=
  ∃ keys s₁, (affectedKeys c.affected).runOn s = (.ok keys, s₁) ∧ c.StepsRead s₁ keys f d

section Calls

variable (hK : K.Lawful)
include hK

/-- The steps of one call go on abreast if the files that they read are readable. -/
theorem Call.abreast_steps (hs : K.Sessions s s') (keys : List Text)
    (hread : ∀ f d, c.StepsRead s keys f d → K.readable d f) :
    Abreast K.Cycles Eq ((c.steps s.project keys).runOn s.atStart)
      ((c.steps s'.project keys).runOn s'.atStart) := by
  have hstart := hs.atStart hK
  cases c with
  | rebuild build affected =>
    have hledger : Update.rebuildSteps s'.project.layout s'.project.ledger keys build
        = Update.rebuildSteps s.project.layout s.project.ledger keys build := by
      rw [hs.layout_eq]
      unfold Update.rebuildSteps Update.rebuildOutput Ledger.sourcesOf
      rw [hs.entries]
    show Abreast _ _ _ ((Update.rebuildSteps s'.project.layout _ _ _).runOn _)
    rw [hledger]
    exact Update.lockstep_rebuildSteps hK.toLawful hs.layout s.project.ledger keys build _ _ hstart
  | edit resolve affected =>
    show Abreast _ _ _ ((Update.editSteps s'.project.layout resolve keys).runOn _)
    rw [hs.layout_eq]
    exact Update.abreast_editSteps hK.toLawful hs.layout hstart fun files d f e hlisted hcomes =>
      hread f e.host.disk ⟨files, d, e, hlisted, hcomes, rfl⟩

/-- Making out which files are affected goes in lockstep. -/
theorem lockstep_affectedKeys (affected : List Affected) :
    Lockstep K.Sessions Eq (affectedKeys affected) (affectedKeys affected) := by
  induction affected with
  | nil => exact lockstep_pure rfl
  | cons a rest ih =>
    refine lockstep_get_bind fun s s' hs => ?_
    have hfile : a.file? s'.project.sources = a.file? s.project.sources := by
      cases a with
      | spelled raw => exact (hK.rules hs.sources).resolve? raw
      | tracked f => rfl
    rw [hfile]
    cases a.file? s.project.sources with
    | none => exact ih s s' hs
    | some f =>
      refine abreast_bind (abreast_onSources hs (hK.track hs.hosts f)) fun _ _ t t' _ _ _ ht => ?_
      exact lockstep_bind_eq ih (fun keys => lockstep_pure rfl) t t' ht

/-- A call comes to the same on both sides if the files that it reads are readable. -/
theorem Call.abreast_run (hs : K.Sessions s s') (hread : ∀ f d, c.Reads s f d → K.readable d f) :
    Abreast K.Sessions K.Reports (c.run.runOn s) (c.run.runOn s') := by
  rw [c.run_eq]
  refine abreast_bind (lockstep_affectedKeys hK c.affected s s' hs) fun keys keys' t t' hkeys _ heq ht => ?_
  subst heq
  rw [runOn_bind_ok (runOn_get t), runOn_bind_ok (runOn_get t')]
  exact abreast_cycle hK ht (Call.abreast_steps hK ht keys fun f d hf => hread f d ⟨keys, t, hkeys, hf⟩)

/-- What recorded locations have to show is the same on both sides, if the sources that they denote are
readable. -/
theorem abreast_unitsAt (hs : K.Sessions s s') (locations : List Path)
    (hread : ∀ p ∈ locations, ∀ f, s.project.sources.resolve? p.text = some f → K.readable s.host.disk f) :
    Abreast K.Sessions Eq ((unitsAt locations).runOn s) ((unitsAt locations).runOn s') := by
  induction locations generalizing s s' with
  | nil => exact abreast_ok rfl hs
  | cons p rest ih =>
    obtain ⟨hp, hrest⟩ := List.forall_mem_cons.mp hread
    unfold unitsAt
    rw [runOn_bind_ok (runOn_get s), runOn_bind_ok (runOn_get s'), (hK.rules hs.sources).resolve?]
    cases hf : s.project.sources.resolve? p.text with
    | none => exact ih hs hrest
    | some f =>
      dsimp only
      refine abreast_bind (abreast_onSources hs (hK.track hs.hosts f)) fun b b' t t' hb _ heq ht => ?_
      subst heq
      -- a lookup leaves the host and the rules as they are, so that what is readable stays so
      have hrules := (sameSetup_track f s).rules
      rw [hb] at hrules
      have hhost : t.host = s.host := by rw [← (Prod.mk.inj hb).2]
      have hrest₁ : ∀ q ∈ rest, ∀ g, t.project.sources.resolve? q.text = some g →
          K.readable t.host.disk g := by
        rw [hhost]
        exact fun q hq g hg => hrest q hq g ((SourceSet.SameRules.resolve? hrules q.text).symm.trans hg)
      cases b with
      | false => exact ih ht hrest₁
      | true =>
        refine abreast_bind (abreast_onSources ht (hK.unitOf ht.hosts (hhost.symm ▸ hp f hf)))
          fun unit unit' u u' hu _ heq hu' => ?_
        subst heq
        have hrules' := (sameSetup_unit f t).rules
        rw [hu] at hrules'
        have hhost' : u.host = t.host := by rw [← (Prod.mk.inj hu).2]
        have hunits := ih hu' (by
          rw [hhost']
          exact fun q hq g hg => hrest₁ q hq g ((SourceSet.SameRules.resolve? hrules' q.text).symm.trans hg))
        cases unit with
        | none => exact hunits
        | some unit =>
          refine abreast_bind hunits fun units units' v v' _ _ heq hv => ?_
          subst heq
          exact abreast_ok rfl hv

/-- A lookup reads a file. -/
def Looks (s : Session) (raw : Text) (f : TrackedFile) : Prop :=
  ∃ key, Path.normalizeKey? s.project.settings.projectRoot raw = some key
    ∧ ∃ p ∈ s.project.ledger.sourcesOf key, s.project.sources.resolve? p.text = some f

/-- A lookup has the same answer on both sides if the files that it reads are readable. -/
theorem abreast_lookup (hs : K.Sessions s s') (raw : Text)
    (hread : ∀ f, s.Looks raw f → K.readable s.host.disk f) :
    Abreast K.Sessions Eq ((lookup raw).runOn s) ((lookup raw).runOn s') := by
  unfold lookup
  rw [runOn_bind_ok (runOn_get s), runOn_bind_ok (runOn_get s')]
  dsimp only
  have hsources : ∀ key, s'.project.ledger.sourcesOf key = s.project.ledger.sourcesOf key :=
    fun key => congrArg (Entries.sourcesOf key) hs.entries
  rw [hs.settings]
  cases hkey : Path.normalizeKey? s.project.settings.projectRoot raw with
  | none => exact abreast_ok rfl hs
  | some key =>
    dsimp only
    rw [hsources]
    exact abreast_unitsAt hK hs _ fun p hp f hf => hread f ⟨key, hkey, p, hp, hf⟩

end Calls

end Provenance.Session
