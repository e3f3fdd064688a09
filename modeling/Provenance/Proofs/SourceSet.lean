/-
What the set of sources keeps.

The set of tracked files comes and goes, and units are read and forgotten. The
directory of the project and the rules that tell its sources stay what they were
when the set was made, and with them stays which spellings denote a source.
Looking at sources may fail, but never by saying that a location is none of them.
-/
import Provenance.SourceSet.Basic
import Provenance.Proofs.Host
import Provenance.Proofs.Outline.Contract

set_option autoImplicit false

namespace Provenance.SourceSet

open Action

/-! ## Rules -/

/-- The two sets are of one project, with one set of rules. -/
def SameRules (s s' : SourceSet) : Prop := s'.root = s.root ∧ s'.rules = s.rules

theorem stepwise_sameRules : Stepwise SameRules :=
  ⟨fun _ => ⟨rfl, rfl⟩, fun h h' => ⟨h'.1.trans h.1, h'.2.trans h.2⟩⟩

/-- The rules alone tell which spellings denote a source. -/
theorem SameRules.resolve? {s s' : SourceSet} (h : SameRules s s') (raw : Text) :
    s'.resolve? raw = s.resolve? raw := by
  simp only [SourceSet.resolve?, trackedFile, h.1, h.2]

/-- A spelling denotes the tracked file of some key. -/
theorem trackedFile_of_resolve? {s : SourceSet} {f : TrackedFile} {raw : Text}
    (h : s.resolve? raw = some f) :
    f = s.trackedFile f.path ∧ s.rules.isSource f.path = true := by
  unfold resolve? at h
  split at h
  · split at h
    · rename_i key _ hsource
      obtain rfl := Option.some.inj h
      exact ⟨rfl, hsource⟩
    · simp at h
  · simp at h

/-- The tracked keys as they are known, or as they would be found. -/
def keysOn (s : SourceSet) (d : Disk) : Except Cause (List Text) :=
  match s.files with
  | some keys => .ok keys
  | none => discover d s.root s.rules

/-- The set when its tracked keys are known. -/
def knowing (s : SourceSet) (keys : List Text) : SourceSet := { s with files := some keys }

theorem knowing_self {s : SourceSet} {keys : List Text} (h : s.files = some keys) :
    s.knowing keys = s := by
  rw [knowing, ← h]

theorem keysOn_of_files {s : SourceSet} {keys : List Text} (h : s.files = some keys) (d : Disk) :
    s.keysOn d = .ok keys := by
  rw [keysOn, h]

/-- The tracked keys are looked for if they are not known. -/
theorem known_eq (d : Disk) (s : SourceSet) :
    (known d).runOn s
      = match s.keysOn d with
        | .ok keys => (.ok keys, s.knowing keys)
        | .error e => (.error ⟨e, []⟩, s) := by
  unfold known keysOn
  rw [runOn_bind, runOn_get]
  dsimp only
  cases hfiles : s.files with
  | some keys =>
    show (Except.ok keys, s) = (Except.ok keys, s.knowing keys)
    rw [knowing_self hfiles]
  | none =>
    cases discover d s.root s.rules <;> rfl

/-- A relation that the tracked keys may be found under. -/
structure Finding (R : SourceSet → SourceSet → Prop) : Prop where
  stepwise : Stepwise R
  found : ∀ s keys, s.files = none → R s { s with files := some keys }

/-- A relation that the tracked keys may be found under, and grow under. -/
structure Tracking (R : SourceSet → SourceSet → Prop) : Prop extends Finding R where
  joined : ∀ s key, R s { s with files := s.files.map (· ++ [key]) }

section Tracking

variable {R : SourceSet → SourceSet → Prop}

theorem Finding.known (hR : Finding R) (d : Disk) : Respects R (known d) := by
  intro s
  rw [known_eq]
  cases hkeys : s.keysOn d with
  | error e => exact hR.stepwise.refl s
  | ok keys =>
    show R s (s.knowing keys)
    cases hfiles : s.files with
    | some known =>
      obtain rfl : known = keys := Except.ok.inj ((keysOn_of_files hfiles d).symm.trans hkeys)
      rw [knowing_self hfiles]
      exact hR.stepwise.refl s
    | none => exact hR.found s keys hfiles

theorem Finding.listed (hR : Finding R) (d : Disk) : Respects R (listed d) := by
  apply respects_bind hR.stepwise (hR.known d)
  intro _
  exact respects_bind hR.stepwise (respects_get hR.stepwise) fun _ => respects_pure hR.stepwise _

theorem Finding.tracks (hR : Finding R) (d : Disk) (f : TrackedFile) : Respects R (tracks d f) :=
  respects_bind hR.stepwise (hR.known d) fun _ => respects_pure hR.stepwise _

/-- Adding a file has at most its key join. -/
theorem Finding.add (hR : Finding R) {d : Disk} {f : TrackedFile}
    (hjoin : ∀ s : SourceSet, R s { s with files := s.files.map (· ++ [f.path]) }) :
    Respects R (add d f) := by
  apply respects_bind hR.stepwise (hR.tracks d f)
  intro tracked
  split
  · exact respects_fail hR.stepwise _
  · apply respects_bind hR.stepwise (respects_get hR.stepwise)
    intro s
    split
    · exact respects_fail hR.stepwise _
    · exact respects_modify hjoin

theorem Finding.trackIfPresent (hR : Finding R) {d : Disk} {f : TrackedFile}
    (hjoin : ∀ s : SourceSet, R s { s with files := s.files.map (· ++ [f.path]) }) :
    Respects R (trackIfPresent d f) := by
  apply respects_bind hR.stepwise (hR.tracks d f)
  intro tracked
  -- a file that is tracked already is not looked for
  cases tracked with
  | true => exact respects_pure hR.stepwise _
  | false =>
    apply respects_bind hR.stepwise (respects_get hR.stepwise)
    intro s
    split
    · exact respects_pure hR.stepwise _
    apply respects_bind hR.stepwise (respects_ofExcept hR.stepwise _ _)
    intro present
    cases present with
    | true =>
      exact respects_bind hR.stepwise (respects_modify hjoin) fun _ => respects_pure hR.stepwise _
    | false => exact respects_pure hR.stepwise _

theorem Finding.sizeAndTime (hR : Finding R) (d : Disk) (f : TrackedFile) :
    Respects R (sizeAndTime d f) := by
  unfold SourceSet.sizeAndTime
  split
  · exact respects_pure hR.stepwise _
  · exact respects_pure hR.stepwise _
  · exact respects_fail hR.stepwise _

/-- Reading a unit forgets the one that is kept for its file, or keeps what is read of the file. -/
theorem Finding.unitOf (hR : Finding R) {d : Disk} {f : TrackedFile}
    (hforget : ∀ s : SourceSet, R s (s.forget f.path))
    (hkeep : ∀ (s : SourceSet) x e content unit, d.stat f.location = .ok (x, e) →
      d.read f.location = .ok content → Outline.parseUnit f.path (textOf content) = .ok unit →
      R s (s.keep f.path ⟨Int.ofNat e.size, e.time, unit⟩)) : Respects R (unitOf d f) := by
  apply respects_bind hR.stepwise (hR.tracks d f)
  intro tracked
  cases tracked with
  | false => exact respects_pure hR.stepwise _
  | true =>
    simp only [Bool.not_true, Bool.false_eq_true, if_false]
    -- a unit that is known is kept, one that cannot be read fails, and any other file is read
    split
    · exact respects_bind hR.stepwise (respects_modify hforget) fun _ => respects_pure hR.stepwise _
    · exact respects_fail hR.stepwise _
    · rename_i x e hstat
      apply respects_bind hR.stepwise (respects_get hR.stepwise)
      intro s
      split
      · exact respects_pure hR.stepwise _
      refine respects_bind_of (P := fun content => d.read f.location = .ok content) hR.stepwise
        (respects_ofExcept hR.stepwise _ _) (fun _ _ _ h => (ofExcept_ok_iff.mp h).1) ?_
      intro content hread
      refine respects_bind_of hR.stepwise (respects_ofExcept hR.stepwise _ _)
        (P := fun unit => Outline.parseUnit f.path (textOf content) = .ok unit)
        (fun _ _ _ h => (ofExcept_ok_iff.mp h).1) ?_
      intro unit hunit
      refine respects_bind hR.stepwise (respects_modify fun s => ?_) fun _ =>
        respects_pure hR.stepwise _
      exact hkeep s x e content unit hstat hread hunit

/-- Taking a file off forgets the unit that is kept for it, and takes its key from the known ones. -/
theorem Finding.remove (hR : Finding R) {d : Disk} {f : TrackedFile}
    (hforget : ∀ s : SourceSet, R s
      { s.forget f.path with files := s.files.map fun keys => keys.filter (· ≠ f.path) }) :
    Respects R (remove d f) := by
  apply respects_bind hR.stepwise (hR.tracks d f)
  intro tracked
  split
  · exact respects_fail hR.stepwise _
  · exact respects_modify hforget

/-- Committing a text keeps at most what is read of it. -/
theorem Finding.commit (hR : Finding R) {d : Disk} {f : TrackedFile} {text : Text}
    (hkeep : ∀ (s : SourceSet) size time unit, Outline.parseUnit f.path text.unifyBreaks = .ok unit →
      R s (s.keep f.path ⟨size, time, unit⟩)) : Respects R (commit d f text) := by
  apply respects_bind hR.stepwise (hR.tracks d f)
  intro tracked
  split
  · exact respects_fail hR.stepwise _
  · apply respects_bind hR.stepwise (respects_get hR.stepwise)
    intro s
    -- a unit of the same text stays as it is
    split
    · exact respects_pure hR.stepwise _
    refine respects_bind_of (P := fun unit => Outline.parseUnit f.path text.unifyBreaks = .ok unit)
      hR.stepwise (respects_ofExcept hR.stepwise _ _) (fun _ _ _ h => (ofExcept_ok_iff.mp h).1) ?_
    intro unit hunit
    apply respects_bind hR.stepwise (hR.sizeAndTime d f)
    intro size
    refine respects_bind hR.stepwise (respects_modify fun s => ?_) fun _ =>
      respects_pure hR.stepwise _
    exact hkeep s size.1 size.2 unit hunit

theorem Tracking.add (hR : Tracking R) (d : Disk) (f : TrackedFile) : Respects R (add d f) :=
  hR.toFinding.add fun s => hR.joined s f.path

theorem Tracking.trackIfPresent (hR : Tracking R) (d : Disk) (f : TrackedFile) :
    Respects R (trackIfPresent d f) :=
  hR.toFinding.trackIfPresent fun s => hR.joined s f.path

end Tracking

theorem tracking_sameRules : Tracking SameRules :=
  ⟨⟨stepwise_sameRules, fun _ _ _ => ⟨rfl, rfl⟩⟩, fun _ _ => ⟨rfl, rfl⟩⟩

theorem respects_listed (d : Disk) : Respects SameRules (listed d) := tracking_sameRules.listed d

theorem respects_trackIfPresent (d : Disk) (f : TrackedFile) :
    Respects SameRules (trackIfPresent d f) := tracking_sameRules.trackIfPresent d f

theorem respects_unitOf (d : Disk) (f : TrackedFile) : Respects SameRules (unitOf d f) :=
  tracking_sameRules.unitOf (fun _ => ⟨rfl, rfl⟩) fun _ _ _ _ _ _ _ _ => ⟨rfl, rfl⟩

/-- The files that are listed are those of the tracked keys, in order. -/
theorem listed_eq {d : Disk} {s : SourceSet} {keys : List Text} (hkeys : s.keysOn d = .ok keys) :
    (listed d).runOn s = (.ok ((sorted keys).map s.trackedFile), s.knowing keys) := by
  have hknown : (known d).runOn s = (.ok keys, s.knowing keys) := by rw [known_eq, hkeys]
  exact runOn_bind_ok hknown

theorem listed_of_error {d : Disk} {s : SourceSet} {c : Cause} (hkeys : s.keysOn d = .error c) :
    (listed d).runOn s = (.error ⟨c, []⟩, s) := by
  have hknown : (known d).runOn s = (.error ⟨c, []⟩, s) := by rw [known_eq, hkeys]
  exact runOn_bind_error hknown

/-- After the files have been listed their keys are known, and each is the tracked file of one. -/
theorem listed_ok {d : Disk} {s s' : SourceSet} {files : List TrackedFile}
    (hr : (listed d).runOn s = (.ok files, s')) :
    ∃ keys, s'.files = some keys ∧ ∀ f ∈ files, f = s'.trackedFile f.path ∧ f.path ∈ keys := by
  rcases hkeys : s.keysOn d with c | keys
  · simp [listed_of_error hkeys] at hr
  rw [listed_eq hkeys] at hr
  obtain ⟨hfiles, rfl⟩ := Prod.mk.inj hr
  obtain rfl := Except.ok.inj hfiles
  refine ⟨keys, rfl, fun f hf => ?_⟩
  obtain ⟨key, hkey, rfl⟩ := List.mem_map.mp hf
  exact ⟨rfl, mem_sorted.mp hkey⟩

/-! ## Kept units -/

theorem kept?_forget (s : SourceSet) (path key : Text) :
    (s.forget path).kept? key = if key = path then none else s.kept? key :=
  Tree.lookup_filter_ne path key s.units

theorem kept?_keep (s : SourceSet) (path key : Text) (k : KeptUnit) :
    (s.keep path k).kept? key = if key = path then some k else s.kept? key := by
  rw [kept?, keep, List.lookup_cons]
  by_cases hkey : key = path
  · simp [hkey]
  · have hb : (key == path) = false := beq_eq_false_iff_ne.mpr hkey
    have hforget := kept?_forget s path key
    rw [if_neg hkey] at hforget
    rw [hb, if_neg hkey]
    exact hforget

/-! ## Units of files that are there -/

section There

variable {d : Disk} {s : SourceSet} {f g : TrackedFile} {keys : List Text} {x : Location} {e : Entry}
  {er : Errno}

/-- What is read of an entry. -/
def contentOf : Entry → Except Errno Bytes
  | .file content _ => .ok content
  | .directory _ => .error .isDirectory
  | _ => .ok []

theorem read_of_stat (hstat : d.stat f.location = .ok (x, e)) : d.read f.location = contentOf e := by
  rw [Disk.read, hstat]
  cases e <;> rfl

/-- The unit that is kept for a file, if it was read from as much at the same time. -/
def fitting? (s : SourceSet) (f : TrackedFile) (e : Entry) : Option KeptUnit :=
  (s.kept? f.path).filter fun k => k.size = Int.ofNat e.size ∧ k.time = e.time

/-- A unit that has just been kept for what is there fits it. -/
@[simp] theorem fitting?_keep (s : SourceSet) (f : TrackedFile) (e : Entry)
    (unit : Outline.SourceUnit) :
    (s.keep f.path ⟨Int.ofNat e.size, e.time, unit⟩).fitting? f e
      = some ⟨Int.ofNat e.size, e.time, unit⟩ := by
  simp [fitting?, kept?, keep]

/-- What the text of an entry is read as. -/
def freshUnit (f : TrackedFile) (e : Entry) : Except Cause Outline.SourceUnit :=
  match contentOf e with
  | .ok content =>
    match Outline.parseUnit f.path (textOf content) with
    | .ok unit => .ok unit
    | .error b => .error (.contract b)
  | .error er => .error (.io (.ofErrno er f.location))

/-- Whatever is not a directory can be read. -/
theorem freshUnit_ok_iff : (∃ unit, freshUnit f e = .ok unit) ↔ e.isDirectory = false := by
  have hparses : ∀ content, contentOf e = .ok content → ∃ unit, freshUnit f e = .ok unit := by
    intro content hcontent
    obtain ⟨unit, hunit, -⟩ := Outline.parseUnit_ok f.path (textOf content)
    exact ⟨unit, by rw [freshUnit, hcontent]; dsimp only; rw [hunit]⟩
  cases e with
  | directory t => simp [freshUnit, contentOf, Entry.isDirectory]
  | file content t => exact iff_of_true (hparses content rfl) rfl
  | link target => exact iff_of_true (hparses [] rfl) rfl
  | special t => exact iff_of_true (hparses [] rfl) rfl

/-- The unit of a file that is there: the one that is kept if it fits, or what it is read as. -/
def unitThere? (s : SourceSet) (f : TrackedFile) (e : Entry) : Option Outline.SourceUnit :=
  match s.fitting? f e with
  | some k => some k.unit
  | none => (freshUnit f e).toOption

theorem tracks_known (hknown : s.files = some keys) :
    (tracks d f).runOn s = (.ok (keys.contains f.path), s) := by
  have hrun : (known d).runOn s = (.ok keys, s) := by
    rw [known_eq, keysOn_of_files hknown, ← knowing_self hknown]
    rfl
  exact runOn_bind_ok hrun

theorem tracks_of_keys (h : s.keysOn d = .ok keys) :
    (tracks d f).runOn s = (.ok (keys.contains f.path), s.knowing keys) := by
  have hrun : (known d).runOn s = (.ok keys, s.knowing keys) := by rw [known_eq, h]
  exact runOn_bind_ok hrun

theorem tracks_of_error {c : Cause} (h : s.keysOn d = .error c) :
    (tracks d f).runOn s = (.error ⟨c, []⟩, s) := by
  have hrun : (known d).runOn s = (.error ⟨c, []⟩, s) := by rw [known_eq, h]
  exact runOn_bind_error hrun

/-- Where the files to track cannot be found, no request for a unit is answered. -/
theorem unitOf_of_error {c : Cause} (hkeys : s.keysOn d = .error c) :
    (unitOf d f).runOn s = (.error ⟨c, []⟩, s) := runOn_bind_error (tracks_of_error hkeys)

/-- Whatever asks first whether a file is tracked runs as it does where the keys are known. -/
theorem runOn_tracks_bind {α : Type} {k : Bool → Action SourceSet α} (h : s.keysOn d = .ok keys) :
    (tracks d f >>= k).runOn s = (tracks d f >>= k).runOn (s.knowing keys) := by
  rw [runOn_bind_ok (tracks_of_keys h), runOn_bind_ok (tracks_known (s := s.knowing keys) rfl)]

/-- A file joins the set if it is a source that is there. -/
theorem trackIfPresent_known (hknown : s.files = some keys) :
    (trackIfPresent d f).runOn s
      = if keys.contains f.path then (.ok true, s)
        else if s.rules.isSource f.path then
          match d.hasFile f.location with
          | .ok true => (.ok true, s.knowing (keys ++ [f.path]))
          | .ok false => (.ok false, s)
          | .error er => (.error ⟨.io (.ofErrno er f.location), []⟩, s)
        else (.ok false, s) := by
  unfold trackIfPresent
  rw [runOn_bind_ok (tracks_known hknown)]
  cases keys.contains f.path with
  | true => rfl
  | false =>
    rw [if_neg Bool.false_ne_true, if_neg Bool.false_ne_true, runOn_bind_ok (runOn_get s)]
    cases s.rules.isSource f.path with
    | false => rfl
    | true =>
      rw [if_pos rfl]
      rcases d.hasFile f.location with er | _ | _
      · rfl
      · rfl
      · have hjoin : (join f.path).runOn s = (.ok (), s.knowing (keys ++ [f.path])) := by
          rw [join, runOn_modify, hknown]
          rfl
        exact (runOn_bind_ok (runOn_ofExcept_ok _ true s)).trans (runOn_bind_ok hjoin)

theorem unitOf_untracked (hknown : s.files = some keys) (hf : keys.contains f.path = false) :
    (unitOf d f).runOn s = (.ok none, s) := by
  unfold unitOf
  rw [runOn_bind_ok (tracks_known hknown), hf]
  rfl

theorem unitOf_missing (hknown : s.files = some keys) (hf : keys.contains f.path = true)
    (hstat : d.stat f.location = .error er) :
    (unitOf d f).runOn s = if er = .notFound then (.ok none, s.forget f.path)
      else (.error ⟨.io (.ofErrno er f.location), []⟩, s) := by
  unfold unitOf
  rw [runOn_bind_ok (tracks_known hknown), hf]
  simp only [Bool.not_true, Bool.false_eq_true, if_false, hstat]
  cases er <;> rfl

theorem unitOf_there (hknown : s.files = some keys) (hf : keys.contains f.path = true)
    (hstat : d.stat f.location = .ok (x, e)) :
    (unitOf d f).runOn s
      = match s.fitting? f e with
        | some k => (.ok (some k.unit), s)
        | none =>
          match freshUnit f e with
          | .ok unit => (.ok (some unit), s.keep f.path ⟨Int.ofNat e.size, e.time, unit⟩)
          | .error er => (.error ⟨er, []⟩, s) := by
  unfold unitOf
  rw [runOn_bind_ok (tracks_known hknown), hf]
  simp only [Bool.not_true, Bool.false_eq_true, if_false, hstat]
  rw [runOn_bind_ok (runOn_get s)]
  show (match s.fitting? f e with
    | some k => pure (some k.unit)
    | none => _ : Action SourceSet (Option Outline.SourceUnit)).runOn s = _
  cases s.fitting? f e with
  | some k => rfl
  | none =>
    dsimp only
    rw [read_of_stat hstat, freshUnit]
    cases contentOf e with
    | error er => rfl
    | ok content =>
      dsimp only
      rw [runOn_bind_ok (runOn_ofExcept_ok _ content s), parseText]
      cases Outline.parseUnit f.path (textOf content) with
      | ok unit => rfl
      | error b => rfl

/-- A tracked file that is there has the unit that is there, if it has one. -/
theorem toOption_unitOf (hknown : s.files = some keys) (hf : keys.contains f.path = true)
    (hstat : d.stat f.location = .ok (x, e)) :
    ((unitOf d f).runOn s).1.toOption = (s.unitThere? f e).map some := by
  rw [unitOf_there hknown hf hstat, unitThere?]
  rcases s.fitting? f e with _ | k
  · cases freshUnit f e <;> rfl
  · rfl

/-- A regular file has a unit. -/
theorem exists_unitThere? (s : SourceSet) (f : TrackedFile) (h : e.isFile = true) :
    ∃ unit, s.unitThere? f e = some unit := by
  have hdir : e.isDirectory = false := by
    cases e with
    | file content t => rfl
    | _ => exact nomatch h
  obtain ⟨unit, hfresh⟩ := (freshUnit_ok_iff (f := f)).mpr hdir
  rw [unitThere?, hfresh]
  cases s.fitting? f e with
  | some k => exact ⟨k.unit, rfl⟩
  | none => exact ⟨unit, rfl⟩

/-- The unit that is kept for a file, if it was read from a given text. -/
def sameText? (s : SourceSet) (f : TrackedFile) (text : Text) : Option KeptUnit :=
  (s.kept? f.path).filter fun k => k.unit.digest = Digest.ofText text

/-- The text of an editor is read and kept, unless the unit that is kept was read from it. -/
theorem commit_there (hknown : s.files = some keys) (hf : keys.contains f.path = true)
    (hstat : d.stat f.location = .ok (x, e)) {text : Text} {unit : Outline.SourceUnit}
    (hunit : Outline.parseUnit f.path text.unifyBreaks = .ok unit) :
    (commit d f text).runOn s
      = match s.sameText? f text.unifyBreaks with
        | some k => (.ok k.unit, s)
        | none => (.ok unit, s.keep f.path ⟨Int.ofNat e.size, e.time, unit⟩) := by
  unfold commit
  rw [runOn_bind_ok (tracks_known hknown), hf]
  simp only [Bool.not_true, Bool.false_eq_true, if_false]
  rw [runOn_bind_ok (runOn_get s)]
  show (match s.sameText? f text.unifyBreaks with
    | some k => pure k.unit
    | none => _ : Action SourceSet Outline.SourceUnit).runOn s = _
  cases s.sameText? f text.unifyBreaks with
  | some k => rfl
  | none =>
    dsimp only
    rw [parseText, hunit, runOn_bind_ok (runOn_ofExcept_ok _ unit s), sizeAndTime, hstat]
    rfl

/-- Where the files are known, reading one leaves at most what is kept for it changed. -/
theorem unitOf_known (hknown : s.files = some keys) :
    ((unitOf d g).runOn s).2.files = some keys
      ∧ ∀ key, key ≠ g.path → ((unitOf d g).runOn s).2.kept? key = s.kept? key := by
  have hforget : ∀ key, key ≠ g.path → (s.forget g.path).kept? key = s.kept? key := fun key hkey =>
    (kept?_forget s g.path key).trans (if_neg hkey)
  rcases hg : keys.contains g.path with _ | _
  · rw [unitOf_untracked hknown hg]
    exact ⟨hknown, fun _ _ => rfl⟩
  rcases hstat : d.stat g.location with er | ⟨x, e⟩
  · rw [unitOf_missing hknown hg hstat]
    split
    · exact ⟨hknown, hforget⟩
    · exact ⟨hknown, fun _ _ => rfl⟩
  · rw [unitOf_there hknown hg hstat]
    rcases s.fitting? g e with _ | k
    swap
    · exact ⟨hknown, fun _ _ => rfl⟩
    rcases freshUnit g e with er | unit
    · exact ⟨hknown, fun _ _ => rfl⟩
    exact ⟨hknown, fun key hkey => (kept?_keep s g.path key _).trans (if_neg hkey)⟩

/-- A file that is there has the same unit after a file, the same one or one with another key, has
been read. -/
theorem unitThere?_unitOf (hknown : s.files = some keys) (hstat : d.stat f.location = .ok (x, e))
    (hfg : f.path = g.path → f = g) :
    ((unitOf d g).runOn s).2.unitThere? f e = s.unitThere? f e := by
  by_cases hpath : f.path = g.path
  swap
  · rw [unitThere?, fitting?, (unitOf_known hknown).2 f.path hpath]
    rfl
  obtain rfl := hfg hpath
  rcases hf : keys.contains f.path with _ | _
  · rw [unitOf_untracked hknown hf]
  rw [unitOf_there hknown hf hstat]
  rcases hfit : s.fitting? f e with _ | k
  swap
  · rfl
  rcases hfresh : freshUnit f e with er | unit
  · rfl
  -- what is kept now is the unit that was read
  show (s.keep f.path _).unitThere? f e = _
  rw [unitThere?, fitting?_keep, unitThere?, hfit, hfresh]
  rfl

end There

/-! ## Failures -/

/-- What looking at the sources on a disk can fail with; for a link that leads back to itself only
where some path goes through one. -/
def IsLook (d : Disk) : Failure → Prop
  | ⟨.io _, []⟩ => True
  | ⟨.linkLoop _, []⟩ => ∃ p q, d.resolve p = .error (.loop q)
  | ⟨.outside _, []⟩ => True
  | ⟨.contract _, []⟩ => True
  | _ => False

theorem isLook_of_foundBelow {d : Disk} {root start : Path} {rules : SourceSettings} {e : Cause}
    (h : foundBelow d root rules start = .error e) : IsLook d ⟨e, []⟩ := by
  unfold foundBelow at h
  split at h
  · exact Except.error.inj h ▸ trivial
  · simp at h
  · split at h
    · exact Except.error.inj h ▸ trivial
    · split at h
      · simp at h
      · split at h
        · exact Except.error.inj h ▸ trivial
        · simp at h

theorem isLook_of_foundBelowAll {d : Disk} {root : Path} {rules : SourceSettings}
    {dirs : List Text} {e : Cause} (h : foundBelowAll d root rules dirs = .error e) :
    IsLook d ⟨e, []⟩ := by
  -- the directories are searched in turn, and the first one that fails ends the search
  induction dirs with
  | nil => exact nomatch h
  | cons dir dirs ih =>
    rw [foundBelowAll] at h
    split at h
    · rename_i hbelow
      exact Except.error.inj h ▸ isLook_of_foundBelow hbelow
    · cases hrest : foundBelowAll d root rules dirs with
      | ok keys => simp [hrest, Except.map] at h
      | error e' =>
        rw [hrest] at h
        obtain rfl : e' = e := by simpa [Except.map] using h
        exact ih hrest

theorem isLook_of_discover {d : Disk} {root : Path} {rules : SourceSettings} {e : Cause}
    (h : discover d root rules = .error e) : IsLook d ⟨e, []⟩ := by
  unfold discover at h
  cases ha : d.absolute root with
  | error e' =>
    obtain rfl : e' = e := by simpa [ha, bind, Except.bind] using h
    unfold Disk.absolute at ha
    cases hr : d.resolve root with
    | ok p => simp [hr] at ha
    | error u =>
      obtain rfl : u.cause = e' := by simpa [hr] using ha
      cases u with
      | adrift => trivial
      | loop q => exact ⟨root, q, hr⟩
  | ok p =>
    cases hb : foundBelowAll d p rules rules.roots with
    | ok keys => simp [ha, hb, bind, Except.bind, pure, Except.pure] at h
    | error e' =>
      obtain rfl : e' = e := by simpa [ha, hb, bind, Except.bind] using h
      exact isLook_of_foundBelowAll hb

theorem blames_known (d : Disk) : Blames (IsLook d) (known d) := by
  intro s f s' h
  rw [known_eq] at h
  split at h
  · simp at h
  · rename_i e he
    obtain ⟨rfl, -⟩ : ⟨e, []⟩ = f ∧ s = s' := by simpa using h
    unfold keysOn at he
    split at he
    · simp at he
    · exact isLook_of_discover he

theorem blames_tracks (d : Disk) (f : TrackedFile) : Blames (IsLook d) (tracks d f) :=
  blames_bind (blames_known d) fun _ => blames_pure _

theorem blames_trackIfPresent (d : Disk) (f : TrackedFile) :
    Blames (IsLook d) (trackIfPresent d f) := by
  apply blames_bind (blames_tracks d f)
  intro tracked
  cases tracked with
  | true => exact blames_pure _
  | false =>
    refine blames_bind blames_get fun s => ?_
    split
    · exact blames_pure _
    refine blames_bind (blames_ofExcept fun _ _ => trivial) fun present => ?_
    cases present with
    | true => exact blames_bind (blames_modify _) fun _ => blames_pure _
    | false => exact blames_pure _

theorem blames_unitOf (d : Disk) (f : TrackedFile) : Blames (IsLook d) (unitOf d f) := by
  refine blames_bind (blames_tracks d f) fun tracked => ?_
  split
  · exact blames_pure _
  split
  · exact blames_bind (blames_modify _) fun _ => blames_pure _
  · exact blames_fail trivial
  refine blames_bind blames_get fun s => ?_
  -- a unit that is kept is not read again
  split
  · exact blames_pure _
  · refine blames_bind (blames_ofExcept fun _ _ => trivial) fun content => ?_
    refine blames_bind (blames_ofExcept fun _ _ => trivial) fun unit => ?_
    exact blames_bind (blames_modify _) fun _ => blames_pure _

end Provenance.SourceSet
