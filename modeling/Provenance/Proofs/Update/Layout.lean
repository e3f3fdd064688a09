/-
Where artifacts are.

The output directory is strictly below the project root, and artifacts are
strictly below it: whatever way an artifact is named, its location goes on from
there through names. So all locations are straight, and the key of an artifact
tells which one it is.
-/
import Provenance.Proofs.Action
import Provenance.Proofs.Path
import Provenance.Update.Edit
import Provenance.Update.FullBuild

set_option autoImplicit false

namespace Provenance

/-! ## Below a path -/

namespace Path

/-- The path goes on from another one by names, by one at least. -/
def Below (p root : Path) : Prop :=
  ∃ names, names ≠ [] ∧ (∀ n ∈ names, IsName n) ∧ p = root.descend names

variable {p q root : Path}

theorem Below.straight (h : p.Below root) (hroot : root.Straight) : p.Straight := by
  obtain ⟨names, -, hn, rfl⟩ := h
  exact hroot.descend hn

theorem Below.trans (h : p.Below q) (hq : q.Below root) : p.Below root := by
  obtain ⟨ms, -, hm, rfl⟩ := h
  obtain ⟨ns, hne, hn, rfl⟩ := hq
  refine ⟨ns ++ ms, by simp [hne], fun n hmem => ?_, descend_descend _ _ _⟩
  rcases List.mem_append.mp hmem with h | h
  · exact hn n h
  · exact hm n h

/-- What is below a path is a name in a directory. -/
theorem Below.cases (h : p.Below root) (hroot : root.Straight) :
    ∃ n, IsName n ∧ p.parent.Straight ∧ p = p.parent.child n := by
  rcases (h.straight hroot).cases with hnil | hcases
  · obtain ⟨names, hne, -, rfl⟩ := h
    simp [descend, hne] at hnil
  · exact hcases

/-- What is below the project root has a key. -/
theorem Below.key (h : p.Below root) : ∃ key, p.key root = .ok key := by
  obtain ⟨names, hne, hn, rfl⟩ := h
  exact ⟨_, key_descend root hne fun n hmem => (hn n hmem).1⟩

/-- Two paths below the project root with one key are one. -/
theorem Below.eq_of_key (hp : p.Below root) (hq : q.Below root) (h : p.key root = q.key root) :
    p = q := by
  obtain ⟨ns, hns, hn, rfl⟩ := hp
  obtain ⟨ms, hms, hm, rfl⟩ := hq
  -- a key is the text of the names after the root, and these can be read off it
  rw [key_descend root hns fun n hmem => (hn n hmem).1,
    key_descend root hms fun n hmem => (hm n hmem).1] at h
  rw [join_injective (fun n hmem => (hn n hmem).1) (fun n hmem => (hm n hmem).1)
    (Except.ok.inj h)]

end Path

/-! ## Artifact paths -/

namespace Artifact

/-- An artifact path that is not refused is read as at least one name, and none of them leads up. -/
theorem of_namesOf {raw : Text} {names : List Text} (h : namesOf raw = .ok names) :
    names = Path.namesIn (cleaned raw) ∧ names ≠ [] ∧ ∀ n ∈ names, Path.IsName n := by
  unfold namesOf at h
  dsimp only at h
  split at h
  · simp at h
  split at h
  · simp at h
  split at h
  · simp at h
  rename_i hup
  split at h
  · simp at h
  rename_i hne
  obtain rfl := Except.ok.inj h
  refine ⟨rfl, by simpa using hne, fun n hmem => ⟨Path.isPiece_of_mem_namesIn hmem, ?_⟩⟩
  rintro rfl
  exact hup (by simpa using hmem)

theorem descend_of_locate {outputRoot p : Path} {raw : Text} (h : locate outputRoot raw = .ok p) :
    ∃ names, namesOf raw = .ok names ∧ p = outputRoot.descend names := by
  unfold locate at h
  cases hn : namesOf raw with
  | error e => simp [hn, Except.map] at h
  | ok names =>
    rw [hn] at h
    exact ⟨names, rfl, (Except.ok.inj h).symm⟩

/-- An artifact path that is not refused leads below the output directory. -/
theorem locate_below {outputRoot p : Path} {raw : Text} (h : locate outputRoot raw = .ok p) :
    p.Below outputRoot := by
  obtain ⟨names, hnames, rfl⟩ := descend_of_locate h
  obtain ⟨-, hne, hn⟩ := of_namesOf hnames
  exact ⟨names, hne, hn, rfl⟩

end Artifact

namespace Update

open Action

/-- A layout whose project root is straight, with the output directory below it. -/
structure Layout.Sound (l : Layout) : Prop where
  root : l.projectRoot.Straight
  output : l.outputRoot.Below l.projectRoot

variable {l : Layout} {p : Path}

theorem Layout.Sound.straight (h : l.Sound) (hp : p.Below l.outputRoot) : p.Straight :=
  hp.straight (h.output.straight h.root)

/-- An artifact has the key of its location. -/
theorem Layout.artifact_ok {a : ArtifactFile} (h : l.artifact p = .ok a) :
    a.location = p ∧ p.key l.projectRoot = .ok a.key := by
  unfold Layout.artifact at h
  cases hk : p.key l.projectRoot with
  | error e => simp [hk] at h
  | ok key =>
    rw [hk] at h
    obtain rfl := Except.ok.inj h
    exact ⟨rfl, rfl⟩

theorem Layout.Sound.artifact (h : l.Sound) (hp : p.Below l.outputRoot) :
    ∃ a, l.artifact p = .ok a := by
  obtain ⟨key, hk⟩ := (hp.trans h.output).key
  exact ⟨⟨key, p⟩, by rw [Layout.artifact, hk]⟩

theorem classLocation_below {c : ClassName} (h : classLocation l c = .ok p) : p.Below l.outputRoot :=
  Artifact.locate_below (except_mapError_ok_iff.mp h)

/-- The artifacts that declarations produce are class files. -/
theorem locationsOf_classes {resolve : Resolver} {ds : List Outline.Declaration} {ps : List Path}
    (h : locationsOf l resolve ds = .ok ps) : ∀ p ∈ ps, ∃ c, classLocation l c = .ok p := by
  -- a declaration without a class adds nothing, and one with a class adds its location
  induction ds generalizing ps with
  | nil =>
    obtain rfl := Except.ok.inj h
    simp
  | cons d ds ih =>
    unfold locationsOf at h
    split at h
    · exact ih h
    obtain ⟨found, -, hrest⟩ := except_bind_ok_iff.mp h
    cases found with
    | none => exact ih hrest
    | some c =>
      obtain ⟨q, hq, hrest⟩ := except_bind_ok_iff.mp hrest
      obtain ⟨qs, hqs, hps⟩ := except_bind_ok_iff.mp hrest
      obtain rfl : q :: qs = ps := Except.ok.inj hps
      exact List.forall_mem_cons.mpr ⟨⟨c, hq⟩, ih hqs⟩

end Update

end Provenance
