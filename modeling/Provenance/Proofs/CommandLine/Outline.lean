/-
What an outline shows.

An outline names the files at some paths in the order in which the paths were given, a file
as often as a path leads to it, and with each the keys of the artifacts that its declarations
would have. It reads the files, and leaves the disk alone.

The keys are those of the outputs that the file would have in a build, one for one
(`Shows.keysIn`), so that what is shown of a file says how often it would be a source of
an artifact (`Shows.sourcesIn`).
-/
import Provenance.CommandLine.Run
import Provenance.Proofs.Session.Lookup
import Provenance.Proofs.Update.Twin

set_option autoImplicit false

namespace Provenance

open Action

/-! ## Reading a file -/

namespace SourceSet

variable {d : Disk} {s s' s₀ : SourceSet} {f : TrackedFile} {keys : List Text}
  {unit : Outline.SourceUnit}

/-- A file that has a unit is tracked and there, and nothing but its unit is kept. -/
theorem unitOf_some (h : Faithful d s₀ s) (hkeys₀ : s₀.keysOn d = .ok keys)
    (hkeys : s.keysOn d = .ok keys) (hplace : f = s₀.trackedFile f.path)
    (hr : (unitOf d f).runOn s = (.ok (some unit), s')) :
    Faithful d s₀ s' ∧ s'.keysOn d = .ok keys ∧ f.path ∈ keys
      ∧ ∃ x e, d.stat f.location = .ok (x, e) ∧ s₀.unitThere? f e = some unit := by
  have hfaithful : Faithful d s₀ (s.knowing keys) := by
    have hnone := h.knowing hkeys₀ (List.forall_mem_nil _)
    rwa [List.append_nil] at hnone
  rw [show (unitOf d f).runOn s = (unitOf d f).runOn (s.knowing keys) from runOn_tracks_bind hkeys]
    at hr
  have hafter := hfaithful.unitOf rfl ⟨keys, hkeys₀⟩ hplace
  have hknown := (unitOf_known (d := d) (g := f) (s := s.knowing keys) rfl).1
  rw [hr] at hafter hknown
  refine ⟨hafter, keysOn_of_files hknown d, ?_⟩
  rcases htracked : keys.contains f.path with _ | _
  · rw [unitOf_untracked rfl htracked] at hr
    simp at hr
  refine ⟨List.contains_iff_mem.mp htracked, ?_⟩
  rcases hstat : d.stat f.location with er | ⟨x, e⟩
  · rw [unitOf_missing rfl htracked hstat] at hr
    split at hr <;> simp at hr
  · have hthere := toOption_unitOf (s := s.knowing keys) rfl htracked hstat
    rw [hr] at hthere
    obtain ⟨unit', hunit', heq⟩ := Option.map_eq_some_iff.mp hthere.symm
    obtain rfl := Option.some.inj heq
    have hsame := h.units f.path x e (by rw [← hplace]; exact hstat)
    rw [← hplace] at hsame
    exact ⟨x, e, rfl, hsame.symm.trans hunit'⟩

end SourceSet

namespace CommandLine

variable {s s' : Session} {l : Update.Layout} {b : Binding} {paths unknown : List Text}
  {units : List Outline.SourceUnit} {u : Outline.SourceUnit} {answer : Json} {key : Text}

/-! ## What an outline leaves alone -/

/-- Reading the units of files reads units, and does nothing else. -/
theorem respects_unitsOf {R : Session → Session → Prop} (hR : Stepwise R)
    (hunit : ∀ f, Respects R (Session.onSources (SourceSet.unitOf · f))) (paths : List Text) :
    Respects R (unitsOf paths) := by
  induction paths with
  | nil => exact respects_pure hR _
  | cons raw rest ih =>
    apply respects_bind hR (respects_get hR)
    intro s
    dsimp only
    split
    case' h_1 => refine respects_bind hR (hunit _) fun unit => ?_
    case' h_2 => refine respects_bind hR (respects_pure hR _) fun unit => ?_
    all_goals
      refine respects_bind hR ih fun found => ?_
      cases unit <;> exact respects_pure hR _

theorem respects_outline {R : Session → Session → Prop} (hR : Stepwise R)
    (hunit : ∀ f, Respects R (Session.onSources (SourceSet.unitOf · f))) (paths : List Text) :
    Respects R (outline paths) := by
  refine respects_bind hR (respects_unitsOf hR hunit paths) fun found => ?_
  apply respects_bind hR (respects_get hR)
  intro s
  refine respects_bind hR (respects_ofExcept hR _ _) fun binding => ?_
  exact respects_bind hR (respects_ofExcept hR _ _) fun files => respects_pure hR _

/-! ## Units -/

/-- A path leads to a tracked file that is there and has the unit. -/
def Gives (t : SourceSet) (d : Disk) (raw : Text) (u : Outline.SourceUnit) : Prop :=
  ∃ f keys x e, t.resolve? raw = some f ∧ t.keysOn d = .ok keys ∧ f.path ∈ keys
    ∧ d.stat f.location = .ok (x, e) ∧ t.unitThere? f e = some u

/-- If all paths are known, each of them gives a unit, as it would if it were the only one. -/
theorem unitsOf_ok {t : SourceSet} (h : SourceSet.Faithful s.host.disk t s.project.sources)
    (hkeys : s.project.sources.keysOn s.host.disk = t.keysOn s.host.disk)
    (hr : (unitsOf paths).runOn s = (.ok (units, []), s')) :
    List.Forall₂ (Gives t s.host.disk) paths units := by
  induction paths generalizing s units with
  | nil =>
    obtain ⟨heq, -⟩ := Prod.mk.inj hr
    obtain ⟨rfl, -⟩ := Prod.mk.inj (Except.ok.inj heq)
    exact .nil
  | cons raw rest ih =>
    obtain ⟨_, _, hget, hr⟩ := bind_ok_iff.mp hr
    obtain ⟨rfl, rfl⟩ := get_ok_iff.mp hget
    rw [h.rules.resolve? raw] at hr
    -- no path is unknown, so that this one has given a unit
    cases hf : t.resolve? raw with
    | none =>
      rw [hf] at hr
      obtain ⟨_, s₁, hnone, hr⟩ := bind_ok_iff.mp hr
      obtain ⟨⟨units', unknown⟩, s₂, -, hr⟩ := bind_ok_iff.mp hr
      obtain rfl := Except.ok.inj (Prod.mk.inj hnone).1
      simp at hr
    | some f =>
      rw [hf] at hr
      obtain ⟨unit, s₁, hunit, hr⟩ := bind_ok_iff.mp hr
      obtain ⟨⟨units', unknown⟩, s₂, hrest, hr⟩ := bind_ok_iff.mp hr
      cases unit with
      | none => simp at hr
      | some u =>
        obtain ⟨heq, rfl⟩ := Prod.mk.inj hr
        obtain ⟨rfl, rfl⟩ := Prod.mk.inj (Except.ok.inj heq)
        rw [Session.runOn_onSources] at hunit
        obtain ⟨hread, rfl⟩ := Prod.mk.inj hunit
        rcases hkeys₀ : t.keysOn s.host.disk with cause | keys
        · rw [SourceSet.unitOf_of_error (hkeys.trans hkeys₀)] at hread
          simp at hread
        obtain ⟨hfaithful, hkeys', hmem, x, e, hstat, hthere⟩ := SourceSet.unitOf_some h hkeys₀
          (hkeys.trans hkeys₀) (SourceSet.trackedFile_of_resolve? hf).1 (Prod.ext hread rfl)
        exact .cons ⟨f, keys, x, e, hf, hkeys₀, hmem, hstat, hthere⟩
          (ih (s := { s with project := { s.project with
            sources := ((SourceSet.unitOf s.host.disk f).runOn s.project.sources).2 } })
            hfaithful (hkeys'.trans hkeys₀.symm) hrest)

/-! ## The answer -/

/-- The texts in a list of them. -/
def textsIn : Option Json → List Text
  | some (.arr items) => items.filterMap Json.text?
  | _ => []

/-- The files that an outline shows, in order: the path of each, and the keys of its artifacts. -/
def shownFiles (answer : Json) : List (Text × List Text) :=
  match answer.get? "files".toList with
  | some (.arr files) => files.map fun file =>
    (((file.get? "path".toList).bind Json.text?).getD [], textsIn (file.get? "artifacts".toList))
  | _ => []

/-- The paths that an outline shows to be of no source. -/
def shownUnknown (answer : Json) : List Text := textsIn (answer.get? "unknown".toList)

/-- What is shown of a unit: its path, and the keys of the artifacts that it produces. -/
def Shows (l : Update.Layout) (b : Binding) (u : Outline.SourceUnit) (shown : Text × List Text) : Prop :=
  shown.1 = u.path ∧ ∃ ps, Update.locationsOf l (.ofBinding b) u.topLevel = .ok ps
    ∧ keysOf l ps = .ok shown.2

theorem textsIn_ofTexts (ts : List Text) : textsIn (some (.ofTexts ts)) = ts := by
  rw [Json.ofTexts, textsIn, List.filterMap_map]
  exact List.filterMap_some

/-- An outline shows its units one by one. -/
theorem shows_of_showUnits {files : List Json} (h : showUnits l b units = .ok files) (rest : Fields) :
    List.Forall₂ (Shows l b) units (shownFiles (.obj (Json.field "files" (.arr files) :: rest))) := by
  induction units generalizing files with
  | nil =>
    obtain rfl := Except.ok.inj h
    exact .nil
  | cons u units ih =>
    unfold showUnits at h
    rcases hu : showUnit l b u with er | shown
    · simp [hu] at h
    rw [hu] at h
    dsimp only at h
    rcases hus : showUnits l b units with er | files'
    · simp [hus, Except.map] at h
    rw [hus] at h
    obtain rfl : shown :: files' = files := Except.ok.inj h
    obtain ⟨ps, hps, hu⟩ := except_bind_ok_iff.mp hu
    obtain ⟨keys, hkeys, hu⟩ := except_bind_ok_iff.mp hu
    obtain rfl := Except.ok.inj hu
    exact .cons ⟨rfl, ps, hps, hkeys.trans (congrArg _ (textsIn_ofTexts keys).symm)⟩ (ih hus)

/-- What is in an outline. -/
theorem outline_ok (hr : (outline paths).runOn s = (.ok answer, s')) :
    ∃ units b, (unitsOf paths).runOn s = (.ok (units, shownUnknown answer), s')
      ∧ Binding.declared units [] = .ok b
      ∧ List.Forall₂ (Shows s'.project.layout b) units (shownFiles answer) := by
  obtain ⟨⟨units, unknown⟩, s₁, hunits, hr⟩ := bind_ok_iff.mp hr
  obtain ⟨_, _, hget, hr⟩ := bind_ok_iff.mp hr
  obtain ⟨rfl, rfl⟩ := get_ok_iff.mp hget
  obtain ⟨b, _, hb, hr⟩ := bind_ok_iff.mp hr
  obtain ⟨hbinding, rfl⟩ := ofExcept_ok_iff.mp hb
  obtain ⟨files, _, hfiles, hr⟩ := bind_ok_iff.mp hr
  obtain ⟨hshown, rfl⟩ := ofExcept_ok_iff.mp hfiles
  obtain ⟨heq, rfl⟩ := Prod.mk.inj hr
  obtain rfl := Except.ok.inj heq
  refine ⟨units, b, ?_, hbinding, shows_of_showUnits hshown _⟩
  rw [hunits]
  exact congrArg (fun ts => (Except.ok (units, ts), s₁)) (textsIn_ofTexts unknown).symm

/-! ## Keys and outputs -/

open Update

variable {f : TrackedFile} {shown : Text × List Text}

theorem keysOf_cons_ok {p : Path} {ps : List Path} {keys : List Text} (h : keysOf l (p :: ps) = .ok keys) :
    ∃ key rest, p.key l.projectRoot = .ok key ∧ keysOf l ps = .ok rest ∧ keys = key :: rest := by
  unfold keysOf at h
  rcases hp : l.artifact p with er | a
  · simp [hp] at h
  rw [hp] at h
  dsimp only at h
  rcases hps : keysOf l ps with er | rest
  · simp [hps, Except.map] at h
  rw [hps] at h
  exact ⟨a.key, rest, (Layout.artifact_ok hp).2, rfl, (Except.ok.inj h).symm⟩

/-- Outputs that name some locations have the keys of these locations, and a source as often for a key
as the key comes. -/
theorem keysIn_of_namedBy {ps : List Path} {build : Build} {keys : List Text}
    (hnamed : List.Forall₂ (NamedBy l f) ps build) (hkeys : keysOf l ps = .ok keys) :
    l.keysIn build = keys
      ∧ ∀ k, l.sourcesIn build k = List.replicate (keys.count k) f.location := by
  induction hnamed generalizing keys with
  | nil =>
    obtain rfl := Except.ok.inj hkeys
    exact ⟨rfl, fun k => rfl⟩
  | @cons p o ps build hfirst _ ih =>
    obtain ⟨hlocate, hsources⟩ := hfirst
    obtain ⟨key, rest, hkey, hrest, rfl⟩ := keysOf_cons_ok hkeys
    obtain ⟨hkeysIn, hsourcesIn⟩ := ih hrest
    have ho : l.keyOf? o = some key := Layout.keyOf?_eq_some_iff.mpr ⟨p, hlocate, hkey⟩
    refine ⟨?_, fun k => ?_⟩
    · rw [Layout.keysIn, List.filterMap_cons_some ho, ← Layout.keysIn, hkeysIn]
    · rw [Layout.sourcesIn, List.filter_cons, List.count_cons]
      by_cases hk : key = k
      · rw [if_pos (by simp [ho, hk]), List.flatMap_cons, ← Layout.sourcesIn, hsourcesIn, hsources,
          if_pos (by simp [hk]), List.replicate_succ]
        rfl
      · rw [if_neg (by simp [ho, hk]), ← Layout.sourcesIn, hsourcesIn, if_neg (by simpa using hk),
          Nat.add_zero]

theorem Shows.keysIn (h : Shows l b u shown) (f : TrackedFile) :
    l.keysIn (outputsOf (.ofBinding b) f (some u)) = shown.2 := by
  obtain ⟨-, ps, hps, hkeys⟩ := h
  exact (keysIn_of_namedBy (namedBy_locationsOf hps) hkeys).1

theorem Shows.sourcesIn (h : Shows l b u shown) (f : TrackedFile) (k : Text) :
    l.sourcesIn (outputsOf (.ofBinding b) f (some u)) k
      = List.replicate (shown.2.count k) f.location := by
  obtain ⟨-, ps, hps, hkeys⟩ := h
  exact (keysIn_of_namedBy (namedBy_locationsOf hps) hkeys).2 k

/-- Of one unit one thing is shown. -/
theorem Shows.unique {shown' : Text × List Text} (h : Shows l b u shown) (h' : Shows l b u shown') :
    shown = shown' := by
  obtain ⟨hpath, ps, hps, hkeys⟩ := h
  obtain ⟨hpath', ps', hps', hkeys'⟩ := h'
  obtain rfl := Except.ok.inj (hps.symm.trans hps')
  exact Prod.ext (hpath.trans hpath'.symm) (Except.ok.inj (hkeys.symm.trans hkeys'))

end CommandLine

end Provenance
