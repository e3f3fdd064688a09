/-
What a lookup answers.

An artifact is looked up by the locations that are recorded for it. Each of them is to be
taken on its own: one that denotes a source and is a regular file has a unit, and any other
is passed over. As the lookup goes on, files join the set of tracked files and units are
kept, and none of this may change what is said of the locations that follow; `Faithful` is
what the set keeps on the way.

A lookup does not look at a file that is tracked already before it reads it, and only one
way of being missing is taken for an answer. `lookup_iff` tells which locations it can
stumble over, and that these are all that can come between a lookup and the right answer.
-/
import Provenance.Proofs.Session.Resolution
import Provenance.Proofs.SourceSet

set_option autoImplicit false

namespace Provenance

open Action

/-! ## One location -/

namespace SourceSet

variable {d : Disk} {s s₀ : SourceSet} {f : TrackedFile} {location : Path} {keys : List Text}

/-- The unit of a file, if it is a regular file. -/
def seen? (s : SourceSet) (d : Disk) (f : TrackedFile) : Option Outline.SourceUnit :=
  match d.stat f.location with
  | .ok (_, e) => if e.isFile then s.unitThere? f e else none
  | .error _ => none

/-- The unit of a location, if it denotes a source and is a regular file. -/
def unitAt? (s : SourceSet) (d : Disk) (location : Path) : Option Outline.SourceUnit :=
  (s.resolve? location.text).bind (s.seen? d)

/-- A file that is a regular file, or of which the disk says that it is not there. -/
def Settled (d : Disk) (f : TrackedFile) : Prop :=
  d.hasFile f.location = .ok true ∨ d.stat f.location = .error .notFound

/-- A location that denotes a source at which a lookup does not tell whether it is a regular file: the
files to track cannot be found, or it is tracked and there is something else in its place, or it is not
and the question whether it is there fails. -/
def Stumbles (s : SourceSet) (d : Disk) (location : Path) : Prop :=
  ∃ f, s.resolve? location.text = some f ∧
    ((∃ c, s.keysOn d = .error c) ∨ ∃ keys, s.keysOn d = .ok keys ∧
      (f.path ∈ keys ∧ ¬ Settled d f ∨ f.path ∉ keys ∧ ∃ er, d.hasFile f.location = .error er))

/-- A set that has come from another by looking at files of a disk. -/
structure Faithful (d : Disk) (s₀ s : SourceSet) : Prop where
  rules : SameRules s₀ s
  failing : ∀ c, s₀.keysOn d = .error c → s = s₀
  tracked : ∀ keys, s₀.keysOn d = .ok keys → ∃ more, s.keysOn d = .ok (keys ++ more)
    ∧ ∀ key ∈ more, d.hasFile (s₀.trackedFile key).location = .ok true
  units : ∀ key x e, d.stat (s₀.trackedFile key).location = .ok (x, e) →
    s.unitThere? (s₀.trackedFile key) e = s₀.unitThere? (s₀.trackedFile key) e

theorem Faithful.refl (d : Disk) (s : SourceSet) : Faithful d s s where
  rules := stepwise_sameRules.refl s
  failing _ _ := rfl
  tracked keys hkeys := ⟨[], by rw [hkeys, List.append_nil], by simp⟩
  units _ _ _ _ := rfl

theorem seen?_of_hasFile (h : d.hasFile f.location = .ok false) : s.seen? d f = none := by
  rw [seen?]
  rcases hstat : d.stat f.location with er | ⟨x, e⟩
  · rfl
  · have hfile : e.isFile = false := Except.ok.inj ((Disk.holds_of_stat Entry.isFile hstat).symm.trans h)
    simp [hfile]

/-- Knowing more keys of regular files is faithful. -/
theorem Faithful.knowing (h : Faithful d s₀ s) {keys more : List Text}
    (hkeys : s₀.keysOn d = .ok keys)
    (hmore : ∀ key ∈ more, d.hasFile (s₀.trackedFile key).location = .ok true) :
    Faithful d s₀ (s.knowing (keys ++ more)) where
  rules := h.rules
  failing c hc := by rw [hkeys] at hc; exact nomatch hc
  tracked keys' hkeys' := by
    obtain rfl := Except.ok.inj (hkeys.symm.trans hkeys')
    exact ⟨more, rfl, hmore⟩
  units := h.units

/-- Reading the unit of a file is faithful. -/
theorem Faithful.unitOf (h : Faithful d s₀ s) (hknown : s.files = some keys)
    (hkeys : ∃ c, s₀.keysOn d = .ok c) (hf : f = s₀.trackedFile f.path) :
    Faithful d s₀ ((unitOf d f).runOn s).2 where
  rules := stepwise_sameRules.trans h.rules (respects_unitOf d f s)
  failing c hc := by
    obtain ⟨c', hc'⟩ := hkeys
    rw [hc'] at hc
    exact nomatch hc
  tracked keys' hkeys' := by
    obtain ⟨more, hmore, hfiles⟩ := h.tracked keys' hkeys'
    refine ⟨more, ?_, hfiles⟩
    rw [keysOn_of_files (unitOf_known hknown).1, ← hmore, keysOn_of_files hknown]
  units key x e hstat := by
    rw [unitThere?_unitOf hknown hstat, h.units key x e hstat]
    intro hpath
    rw [hf, ← hpath]
    rfl

/-- What reading a tracked file gives: what is seen of it if the file is settled, and a failure or a
unit in excess if it is not. -/
theorem unitOf_spec (h : Faithful d s₀ s) (hknown : s.files = some keys) (hf : f.path ∈ keys)
    (hplace : f = s₀.trackedFile f.path) (hkeys : ∃ keys, s₀.keysOn d = .ok keys) :
    Ends ((unitOf d f).runOn s)
      (fun unit s' => Faithful d s₀ s' ∧ (Settled d f → unit = s₀.seen? d f)
        ∧ (¬ Settled d f → unit.isSome ∧ s₀.seen? d f = none))
      (fun _ _ => ¬ Settled d f) := by
  have hfaithful := h.unitOf hknown hkeys hplace
  have hf' : keys.contains f.path = true := List.contains_iff_mem.mpr hf
  rcases hstat : d.stat f.location with er | ⟨x, e⟩
  · have hseen : s₀.seen? d f = none := by rw [seen?, hstat]
    rw [unitOf_missing hknown hf' hstat] at hfaithful ⊢
    by_cases her : er = .notFound
    · have hsettled : Settled d f := .inr (her ▸ hstat)
      rw [if_pos her] at hfaithful ⊢
      exact ⟨hfaithful, fun _ => hseen.symm, fun hnot => absurd hsettled hnot⟩
    · rw [if_neg her]
      rintro (hfile | hmissing)
      · obtain ⟨x, e, hpresent, -⟩ := Disk.holds_true_iff.mp hfile
        exact nomatch hstat.symm.trans hpresent
      · rw [hstat] at hmissing
        exact her (Except.error.inj hmissing)
  · have hsettled : Settled d f ↔ e.isFile = true := by
      rw [Settled, Disk.hasFile, Disk.holds_of_stat _ hstat, hstat]
      simp
    have hseen : s₀.seen? d f = if e.isFile then s.unitThere? f e else none := by
      have hunits := h.units f.path x e (hplace ▸ hstat)
      rw [← hplace] at hunits
      rw [seen?, hstat, hunits]
    have hread := toOption_unitOf hknown hf' hstat
    rcases hrun : (unitOf d f).runOn s with ⟨c | unit, s'⟩ <;> rw [hrun] at hfaithful hread
    · -- a regular file can be read
      intro hfile
      obtain ⟨unit, hunit⟩ := exists_unitThere? s f (hsettled.mp hfile)
      rw [hunit] at hread
      exact nomatch hread
    · obtain ⟨unit, hunit, rfl⟩ := Option.map_eq_some_iff.mp hread.symm
      refine ⟨hfaithful, fun hfile => ?_, fun hnot => ⟨rfl, ?_⟩⟩
      · rw [hseen, if_pos (hsettled.mp hfile), hunit]
      · rw [hseen, if_neg fun hfile => hnot (hsettled.mpr hfile)]

theorem stumbles_iff_of_mem (hresolve : s.resolve? location.text = some f)
    (hkeys : s.keysOn d = .ok keys) (hf : f.path ∈ keys) : s.Stumbles d location ↔ ¬ Settled d f := by
  simp [Stumbles, hresolve, hkeys, hf]

theorem stumbles_iff_of_not_mem (hresolve : s.resolve? location.text = some f)
    (hkeys : s.keysOn d = .ok keys) (hf : f.path ∉ keys) :
    s.Stumbles d location ↔ ∃ er, d.hasFile f.location = .error er := by
  simp [Stumbles, hresolve, hkeys, hf]

/-- Whether a source is tracked, once it has been looked for: it was before, or it is a regular file. -/
theorem trackIfPresent_spec (h : Faithful d s₀ s) (hresolve : s₀.resolve? location.text = some f)
    (hkeys : s₀.keysOn d = .ok keys) :
    Ends ((trackIfPresent d f).runOn s)
      (fun present s' => Faithful d s₀ s' ∧ if present
        then (∃ known, s'.files = some known ∧ f.path ∈ known)
          ∧ (f.path ∈ keys ∨ d.hasFile f.location = .ok true)
        else f.path ∉ keys ∧ d.hasFile f.location = .ok false)
      (fun _ _ => s₀.Stumbles d location) := by
  obtain ⟨hplace, hsource⟩ := trackedFile_of_resolve? hresolve
  obtain ⟨more, hmore, hfiles⟩ := h.tracked keys hkeys
  have hrun : (trackIfPresent d f).runOn s
      = (trackIfPresent d f).runOn (s.knowing (keys ++ more)) := runOn_tracks_bind hmore
  have hsource' : (s.knowing (keys ++ more)).rules.isSource f.path = true := by
    show s.rules.isSource f.path = true
    rw [h.rules.2, hsource]
  rw [hrun, trackIfPresent_known rfl, hsource', if_pos rfl]
  by_cases hf : f.path ∈ keys ++ more
  · rw [if_pos (List.contains_iff_mem.mpr hf)]
    refine ⟨h.knowing hkeys hfiles, ⟨keys ++ more, rfl, hf⟩, ?_⟩
    rcases List.mem_append.mp hf with hf | hf
    · exact .inl hf
    · exact .inr (hplace ▸ hfiles f.path hf)
  rw [if_neg (by simpa using hf)]
  have hnot : f.path ∉ keys := fun hf' => hf (List.mem_append_left _ hf')
  rcases hfile : d.hasFile f.location with er | _ | _
  · rw [ends_error, stumbles_iff_of_not_mem hresolve hkeys hnot]
    exact ⟨er, hfile⟩
  · exact ⟨h.knowing hkeys hfiles, hnot, rfl⟩
  · -- a regular file joins the set
    have hjoined : Faithful d s₀ (s.knowing (keys ++ (more ++ [f.path]))) := by
      refine h.knowing hkeys fun key hkey => ?_
      rcases List.mem_append.mp hkey with hkey | hkey
      · exact hfiles key hkey
      · obtain rfl := List.mem_singleton.mp hkey
        exact hplace ▸ hfile
    rw [← List.append_assoc] at hjoined
    exact ⟨hjoined, ⟨_, rfl, by simp⟩, .inr rfl⟩

/-- What a lookup does at one location. -/
def unitAt (d : Disk) (location : Path) : Action SourceSet (Option Outline.SourceUnit) := do
  match (← get).resolve? location.text with
  | none => return none
  | some f => if ← trackIfPresent d f then unitOf d f else return none

/-- A lookup goes on faithfully. At a location it stumbles over it fails, or has a unit in excess; of
any other it says what is there. -/
theorem unitAt_spec (h : Faithful d s₀ s) (location : Path) :
    Ends ((unitAt d location).runOn s)
      (fun unit s' => Faithful d s₀ s' ∧ (¬ s₀.Stumbles d location → unit = s₀.unitAt? d location)
        ∧ (s₀.Stumbles d location → unit.isSome ∧ s₀.unitAt? d location = none))
      (fun _ _ => s₀.Stumbles d location) := by
  unfold unitAt
  rw [runOn_bind_ok (runOn_get s), h.rules.resolve? location.text]
  rcases hresolve : s₀.resolve? location.text with _ | f
  · -- a location that denotes no source is passed over
    have hnot : ¬ s₀.Stumbles d location := by
      rintro ⟨f, hf, -⟩
      exact nomatch hresolve.symm.trans hf
    exact ⟨h, fun _ => by rw [unitAt?, hresolve]; rfl, fun hs => absurd hs hnot⟩
  have hseen : s₀.unitAt? d location = s₀.seen? d f := by rw [unitAt?, hresolve]; rfl
  rcases hkeys : s₀.keysOn d with c | keys
  · -- the files to track cannot be found
    obtain rfl := h.failing c hkeys
    have hrun : (trackIfPresent d f).runOn s = (.error ⟨c, []⟩, s) :=
      runOn_bind_error (tracks_of_error hkeys)
    dsimp only
    rw [runOn_bind_error hrun]
    exact ⟨f, hresolve, .inl ⟨c, hkeys⟩⟩
  refine ends_bind (trackIfPresent_spec h hresolve hkeys) fun present s' hpresent => ?_
  obtain ⟨hfaithful, hpresent⟩ := hpresent
  cases present with
  | false =>
    obtain ⟨hnot, hfile⟩ := hpresent
    have hclear : ¬ s₀.Stumbles d location := by
      rw [stumbles_iff_of_not_mem hresolve hkeys hnot, hfile]
      simp
    exact ⟨hfaithful, fun _ => by rw [hseen, seen?_of_hasFile hfile], fun hs => absurd hs hclear⟩
  | true =>
    obtain ⟨⟨known, hknown, hf⟩, hfile⟩ := hpresent
    have hiff : s₀.Stumbles d location ↔ ¬ Settled d f := by
      by_cases hmem : f.path ∈ keys
      · exact stumbles_iff_of_mem hresolve hkeys hmem
      · -- it has been found
        have hfound := hfile.resolve_left hmem
        have hsettled : Settled d f := .inl hfound
        rw [stumbles_iff_of_not_mem hresolve hkeys hmem, hfound]
        simp [hsettled]
    rw [hiff, hseen, not_not]
    exact unitOf_spec hfaithful hknown hf (trackedFile_of_resolve? hresolve).1 ⟨keys, hkeys⟩

/-- A location has a unit exactly if it denotes a source and is a regular file. -/
theorem isSome_unitAt?_iff : (s.unitAt? d location).isSome
    ↔ ∃ f, s.resolve? location.text = some f ∧ d.hasFile f.location = .ok true := by
  unfold unitAt?
  rcases s.resolve? location.text with _ | f
  · simp
  show (s.seen? d f).isSome ↔ ∃ g, some f = some g ∧ _
  simp only [Option.some.injEq, exists_eq_left', Disk.hasFile, Disk.holds_true_iff]
  rw [seen?]
  rcases d.stat f.location with er | ⟨x, e⟩
  · simp
  · obtain hfile | hfile := Bool.eq_false_or_eq_true e.isFile
    · obtain ⟨unit, hunit⟩ := exists_unitThere? s f hfile
      simp [hfile, hunit]
    · simp [hfile]

end SourceSet

/-! ## Lookups -/

namespace Session

variable {s : Session} {s₀ : SourceSet} {d : Disk} {α : Type}

/-- The session with other sources. -/
def withSources (s : Session) (sources : SourceSet) : Session :=
  { s with project := { s.project with sources := sources } }

theorem ends_onSources {act : Disk → Action SourceSet α} {Q : α → Session → Prop}
    {E : Failure → Session → Prop}
    (h : Ends ((act s.host.disk).runOn s.project.sources) (fun a sources => Q a (s.withSources sources))
      (fun f sources => E f (s.withSources sources))) : Ends ((onSources act).runOn s) Q E := by
  rw [runOn_onSources]
  rcases hr : (act s.host.disk).runOn s.project.sources with ⟨_ | a, sources⟩ <;> rwa [hr] at h

/-- Nothing before what an action gives. -/
theorem runOn_nil_append (act : Action Session (List α)) (s : Session) :
    (act >>= fun found => pure ([] ++ found)).runOn s = act.runOn s := by
  rw [runOn_bind]
  rcases act.runOn s with ⟨_ | found, s'⟩ <;> rfl

/-- A lookup takes one location after the other. -/
theorem unitsAt_cons (location : Path) (rest : List Path) (s : Session) :
    (unitsAt (location :: rest)).runOn s
      = (do
          let unit ← onSources (SourceSet.unitAt · location)
          let units ← unitsAt rest
          return unit.toList ++ units).runOn s := by
  rw [unitsAt, runOn_bind_ok (runOn_get s), runOn_bind, runOn_onSources, SourceSet.unitAt,
    runOn_bind_ok (runOn_get _)]
  rcases s.project.sources.resolve? location.text with _ | f
  · exact (runOn_nil_append (unitsAt rest) s).symm
  dsimp only
  rw [runOn_bind, runOn_onSources, runOn_bind]
  rcases (SourceSet.trackIfPresent s.host.disk f).runOn s.project.sources with ⟨c | _ | _, sources⟩
  · rfl
  · exact (runOn_nil_append (unitsAt rest) (s.withSources sources)).symm
  · dsimp only
    rw [if_pos rfl, if_pos rfl, runOn_bind, runOn_onSources]
    dsimp only
    rcases (SourceSet.unitOf s.host.disk f).runOn sources with ⟨c | _ | unit, sources'⟩
    · rfl
    · exact (runOn_nil_append (unitsAt rest) (s.withSources sources')).symm
    · rfl

theorem filterMap_cons_eq_append {β γ : Type} (g : β → Option γ) (a : β) (l : List β) :
    (a :: l).filterMap g = (g a).toList ++ l.filterMap g := by
  rw [List.filterMap_cons]
  cases g a <;> rfl

/-- A lookup that starts on sources that have come faithfully from others: it fails only if it stumbles,
it has no fewer units than there are to be found, and it has just those exactly if it does not
stumble. -/
theorem unitsAt_spec (locations : List Path) (h : SourceSet.Faithful d s₀ s.project.sources)
    (hdisk : s.host.disk = d) :
    Ends ((unitsAt locations).runOn s)
      (fun units _ => (locations.filterMap (s₀.unitAt? d)).length ≤ units.length
        ∧ (units = locations.filterMap (s₀.unitAt? d)
          ↔ ∀ location ∈ locations, ¬ s₀.Stumbles d location))
      (fun _ _ => ∃ location ∈ locations, s₀.Stumbles d location) := by
  induction locations generalizing s with
  | nil => exact ⟨le_rfl, by simp⟩
  | cons location rest ih =>
    obtain rfl := hdisk
    have hstep : Ends ((onSources (SourceSet.unitAt · location)).runOn s)
        (fun unit s' => s'.host.disk = s.host.disk
          ∧ SourceSet.Faithful s.host.disk s₀ s'.project.sources
          ∧ (¬ s₀.Stumbles s.host.disk location → unit = s₀.unitAt? s.host.disk location)
          ∧ (s₀.Stumbles s.host.disk location →
            unit.isSome ∧ s₀.unitAt? s.host.disk location = none))
        (fun _ _ => ∃ l ∈ location :: rest, s₀.Stumbles s.host.disk l) :=
      ends_onSources ((SourceSet.unitAt_spec h location).imp (fun _ _ hunit => ⟨rfl, hunit⟩)
        fun _ _ hs => ⟨location, List.mem_cons_self, hs⟩)
    rw [unitsAt_cons]
    refine ends_bind hstep fun unit s' hunit => ?_
    obtain ⟨hdisk, hfaithful, hclear, hstumbles⟩ := hunit
    refine ends_bind ((ih hfaithful hdisk).imp (fun _ _ hunits => hunits) ?_) fun units _ hunits => ?_
    · rintro _ _ ⟨l, hl, hs⟩
      exact ⟨l, List.mem_cons_of_mem location hl, hs⟩
    obtain ⟨hlength, hiff⟩ := hunits
    show _ ≤ (unit.toList ++ units).length ∧ (unit.toList ++ units = _ ↔ _)
    rw [List.forall_mem_cons, ← hiff, filterMap_cons_eq_append]
    by_cases hs : s₀.Stumbles s.host.disk location
    · -- the unit in excess makes the answer too long
      obtain ⟨hsome, hnone⟩ := hstumbles hs
      obtain ⟨found, rfl⟩ := Option.isSome_iff_exists.mp hsome
      have hne : found :: units ≠ rest.filterMap (s₀.unitAt? s.host.disk) := by
        intro heq
        rw [← heq] at hlength
        exact absurd hlength (by simp)
      simpa [hnone, hs, hne] using Nat.le_succ_of_le hlength
    · rw [hclear hs]
      simp [hs, hlength]

/-- The locations that are recorded for an artifact, the artifact given by any spelling of its path. -/
def recorded (s : Session) (raw : Text) : List Path :=
  match Path.normalizeKey? s.project.settings.projectRoot raw with
  | none => []
  | some key => s.project.ledger.sourcesOf key

theorem runOn_lookup (s : Session) (raw : Text) :
    (lookup raw).runOn s = (unitsAt (s.recorded raw)).runOn s := by
  rw [lookup, runOn_bind_ok (runOn_get s), recorded]
  dsimp only
  cases Path.normalizeKey? s.project.settings.projectRoot raw <;> rfl

/-- In any session, a lookup of an artifact succeeds with the units of just those recorded locations that
denote a source and are regular files, in recorded order, exactly if it stumbles over none of the
recorded locations. -/
theorem lookup_iff (s : Session) (raw : Text) :
    ((∃ s', (lookup raw).runOn s
        = (.ok ((s.recorded raw).filterMap (s.project.sources.unitAt? s.host.disk)), s'))
      ↔ ∀ location ∈ s.recorded raw, ¬ s.project.sources.Stumbles s.host.disk location)
    ∧ ∀ location, (s.project.sources.unitAt? s.host.disk location).isSome
      ↔ ∃ f, s.project.sources.resolve? location.text = some f
        ∧ s.host.disk.hasFile f.location = .ok true := by
  refine ⟨?_, fun location => SourceSet.isSome_unitAt?_iff⟩
  have hspec := unitsAt_spec (s.recorded raw) (.refl s.host.disk s.project.sources) rfl
  rw [runOn_lookup]
  rcases hrun : (unitsAt (s.recorded raw)).runOn s with ⟨f | units, s'⟩ <;> rw [hrun] at hspec
  · obtain ⟨location, hmem, hstumbles⟩ := hspec
    simp only [Prod.mk.injEq, reduceCtorEq, false_and, exists_false, false_iff]
    exact fun hclear => hclear location hmem hstumbles
  · rw [← hspec.2]
    simp

/-- A disk on which a directory has come in the place of the source. -/
def replacedTree : Tree :=
  .ofEntries [(["p".toList], .directory 0), (["p".toList, "src".toList], .directory 0),
    (["p".toList, "src".toList, "A.kt".toList], .directory 0)]

/-- The artifact of the source, as it is asked for. -/
def smallArtifact : Text := "bin/kotlin/A.class".toList

/-- The session after its source has been built and looked up, and a directory has come in the place of
the source. -/
def replaced (s : Session) : Session :=
  s.performAll [.call (.rebuild smallBuild []), .lookup smallArtifact, .meanwhile (idle replacedTree)]

/-- The location of a source that has been replaced is still recorded and has no unit, so that the
answer to a lookup is that there is none; but the lookup fails. -/
theorem not_answered_in_place_of_file :
    ∃ s, small? [] = some s ∧ s.replaced.recorded smallArtifact = [smallSource]
      ∧ s.replaced.project.sources.unitAt? s.replaced.host.disk smallSource = none
      ∧ ((lookup smallArtifact).runOn s.replaced).1.isOk = false := by
  have hrun : ((small? []).map fun s =>
      decide (s.replaced.recorded smallArtifact = [smallSource])
        && decide (s.replaced.project.sources.unitAt? s.replaced.host.disk smallSource = none)
        && !((lookup smallArtifact).runOn s.replaced).1.isOk) = some true := by
    decide +kernel
  obtain ⟨s, hs, h⟩ := Option.map_eq_some_iff.mp hrun
  simp only [Bool.and_eq_true, decide_eq_true_eq, Bool.not_eq_true'] at h
  exact ⟨s, hs, h.1.1, h.1.2, h.2⟩

end Session

end Provenance
