/-
Sets of sources that differ in an order.

The tracked keys are kept in the order in which they came to be known. No request depends on
it: files are listed in the order of their keys, and otherwise all that counts is whether a
key is tracked. Nor does it matter on which of two disks a request is made, if they show the
same sources and the same regular files and, where a file is read, the same in its place.
-/
import Provenance.Proofs.Lockstep
import Provenance.Proofs.Order
import Provenance.Proofs.SourceSet.Requests

set_option autoImplicit false

namespace Provenance.SourceSet

open Action

variable {t t' : SourceSet} {d d' : Disk} {f : TrackedFile} {α : Type} {P : α → α → Prop}

/-! ## Shuffled sets -/

/-- The two sets differ at most in the order of their tracked keys. -/
structure Shuffled (t t' : SourceSet) : Prop where
  root : t'.root = t.root
  rules : t'.rules = t.rules
  units : t'.units = t.units
  files : Option.Rel List.Perm t.files t'.files

theorem Shuffled.refl (t : SourceSet) : Shuffled t t where
  root := rfl
  rules := rfl
  units := rfl
  files := by
    cases t.files with
    | none => exact .none
    | some keys => exact .some (.refl keys)

theorem Shuffled.sameRules (h : Shuffled t t') : SameRules t t' := ⟨h.root, h.rules⟩

theorem Shuffled.kept? (h : Shuffled t t') (key : Text) : t'.kept? key = t.kept? key := by
  rw [SourceSet.kept?, SourceSet.kept?, h.units]

theorem Shuffled.forget (h : Shuffled t t') (key : Text) : Shuffled (t.forget key) (t'.forget key) where
  root := h.root
  rules := h.rules
  units := by rw [SourceSet.forget, SourceSet.forget, h.units]
  files := h.files

theorem Shuffled.keep (h : Shuffled t t') (key : Text) (k : KeptUnit) :
    Shuffled (t.keep key k) (t'.keep key k) where
  root := h.root
  rules := h.rules
  units := by rw [SourceSet.keep, SourceSet.keep, (h.forget key).units]
  files := h.files

/-- Whatever is done with the keys, if it does not depend on their order. -/
theorem Shuffled.map (h : Shuffled t t') {g : List Text → List Text}
    (hg : ∀ ks ks' : List Text, ks.Perm ks' → (g ks).Perm (g ks')) :
    Shuffled { t with files := t.files.map g } { t' with files := t'.files.map g } := by
  refine ⟨h.root, h.rules, h.units, ?_⟩
  obtain ⟨-, -, -, hfiles⟩ := h
  dsimp only
  generalize t.files = ks at hfiles ⊢
  generalize t'.files = ks' at hfiles ⊢
  cases hfiles with
  | none => exact .none
  | some hks => exact .some (hg _ _ hks)

theorem Shuffled.knowing (h : Shuffled t t') {ks ks' : List Text} (hks : ks.Perm ks') :
    Shuffled (t.knowing ks) (t'.knowing ks') := ⟨h.root, h.rules, h.units, .some hks⟩

/-! ## Requests -/

/-- The two disks show the same sources to a search, and the same regular files. -/
structure SameView (d d' : Disk) : Prop where
  discover : ∀ root rules, discover d' root rules = discover d root rules
  hasFile : ∀ p, d'.hasFile p = d.hasFile p

theorem SameView.refl (d : Disk) : SameView d d := ⟨fun _ _ => rfl, fun _ => rfl⟩

section Requests

variable (hv : SameView d d')
include hv

theorem Shuffled.keysOn (h : Shuffled t t') : Matched List.Perm (t.keysOn d) (t'.keysOn d') := by
  obtain ⟨hroot, hrules, -, hfiles⟩ := h
  rw [SourceSet.keysOn, SourceSet.keysOn, hroot, hrules, hv.discover]
  generalize t.files = ks at hfiles ⊢
  generalize t'.files = ks' at hfiles ⊢
  cases hfiles with
  | some hks => exact .ok hks
  | none => exact Matched.refl.imp fun _ _ heq => heq ▸ .refl _

theorem lockstep_known : Lockstep Shuffled List.Perm (known d) (known d') := by
  intro t t' h
  have hkeys := h.keysOn hv
  rw [known_eq, known_eq]
  generalize t.keysOn d = x at hkeys ⊢
  generalize t'.keysOn d' = y at hkeys ⊢
  cases hkeys with
  | ok hks => exact abreast_ok hks (h.knowing hks)
  | error e => exact abreast_error h

theorem lockstep_listed : Lockstep Shuffled Eq (listed d) (listed d') := by
  refine lockstep_bind (lockstep_known hv) fun ks ks' hks => ?_
  refine lockstep_bind lockstep_get fun t t' h => lockstep_pure ?_
  rw [sorted_of_perm hks]
  refine List.map_congr_left fun key _ => ?_
  rw [trackedFile, trackedFile, h.root]

theorem lockstep_tracks (f : TrackedFile) : Lockstep Shuffled Eq (tracks d f) (tracks d' f) :=
  lockstep_bind (lockstep_known hv) fun _ _ hks => lockstep_pure hks.contains_eq

omit hv in
theorem lockstep_join (key : Text) : Lockstep Shuffled Eq (join key) (join key) :=
  lockstep_modify fun _ _ h => h.map fun _ _ hks => hks.append_right [key]

theorem lockstep_add (f : TrackedFile) : Lockstep Shuffled Eq (add d f) (add d' f) := by
  refine lockstep_bind_eq (lockstep_tracks hv f) fun tracked => ?_
  split
  · exact lockstep_fail _
  · refine lockstep_bind lockstep_get fun t t' h => ?_
    rw [h.rules]
    split
    · exact lockstep_fail _
    · exact lockstep_join f.path

theorem lockstep_remove (f : TrackedFile) : Lockstep Shuffled Eq (remove d f) (remove d' f) := by
  refine lockstep_bind_eq (lockstep_tracks hv f) fun tracked => ?_
  dsimp only
  split
  · exact lockstep_fail _
  · exact lockstep_modify fun _ _ h => (h.forget f.path).map fun _ _ hks => hks.filter _

theorem lockstep_trackIfPresent (f : TrackedFile) :
    Lockstep Shuffled Eq (trackIfPresent d f) (trackIfPresent d' f) := by
  refine lockstep_bind_eq (lockstep_tracks hv f) fun tracked => ?_
  dsimp only
  split
  · exact lockstep_pure rfl
  refine lockstep_bind lockstep_get fun t t' h => ?_
  rw [h.rules, hv.hasFile]
  split
  · exact lockstep_pure rfl
  refine lockstep_bind_eq (lockstep_ofExcept .refl) fun present => ?_
  cases present with
  | true => exact lockstep_bind_eq (lockstep_join f.path) fun _ => lockstep_pure rfl
  | false => exact lockstep_pure rfl

omit hv in
theorem lockstep_reset : Lockstep Shuffled Eq reset reset :=
  lockstep_modify fun _ _ h => ⟨h.root, h.rules, rfl, .none⟩

section Read

variable (hstat : d'.stat f.location = d.stat f.location)
include hstat

/-- A file in whose place the disks show the same has the same unit. -/
theorem lockstep_unitOf : Lockstep Shuffled Eq (unitOf d f) (unitOf d' f) := by
  refine lockstep_bind_eq (lockstep_tracks hv f) fun tracked => ?_
  rw [hstat, Disk.read, Disk.read, hstat]
  split
  · exact lockstep_pure rfl
  split
  · exact lockstep_bind_eq (lockstep_modify fun _ _ h => h.forget f.path) fun _ => lockstep_pure rfl
  · exact lockstep_fail _
  · refine lockstep_bind lockstep_get fun t t' h => ?_
    rw [h.kept?]
    split
    · exact lockstep_pure rfl
    refine lockstep_bind_eq (lockstep_ofExcept .refl) fun content => ?_
    refine lockstep_bind_eq (lockstep_ofExcept .refl) fun unit => ?_
    exact lockstep_bind_eq (lockstep_modify fun _ _ h => h.keep f.path _) fun _ => lockstep_pure rfl

omit hv in
theorem lockstep_sizeAndTime : Lockstep Shuffled Eq (sizeAndTime d f) (sizeAndTime d' f) := by
  unfold sizeAndTime
  rw [hstat]
  split
  · exact lockstep_pure rfl
  · exact lockstep_pure rfl
  · exact lockstep_fail _

/-- The text of an editor is taken for that of the file in the same way. -/
theorem lockstep_commit (text : Text) : Lockstep Shuffled Eq (commit d f text) (commit d' f text) := by
  refine lockstep_bind_eq (lockstep_tracks hv f) fun tracked => ?_
  dsimp only
  split
  · exact lockstep_fail _
  refine lockstep_bind lockstep_get fun t t' h => ?_
  rw [h.kept?]
  split
  · exact lockstep_pure rfl
  refine lockstep_bind_eq (lockstep_ofExcept .refl) fun unit => ?_
  refine lockstep_bind_eq (lockstep_sizeAndTime hstat) fun size => ?_
  exact lockstep_bind_eq (lockstep_modify fun _ _ h => h.keep f.path _) fun _ => lockstep_pure rfl

end Read

/-- A request has the same reply, if the disks show the same in the place of the file that it reads. -/
theorem lockstep_ask (r : Request) (hread : ∀ f, r.Reads f → d'.stat f.location = d.stat f.location) :
    Lockstep Shuffled Eq (r.ask d) (r.ask d') := by
  cases r with
  | list => exact lockstep_bind_eq (lockstep_listed hv) fun _ => lockstep_pure rfl
  | tracks f => exact lockstep_bind_eq (lockstep_tracks hv f) fun _ => lockstep_pure rfl
  | add f => exact lockstep_bind_eq (lockstep_add hv f) fun _ => lockstep_pure rfl
  | remove f => exact lockstep_bind_eq (lockstep_remove hv f) fun _ => lockstep_pure rfl
  | track f => exact lockstep_bind_eq (lockstep_trackIfPresent hv f) fun _ => lockstep_pure rfl
  | resolve raw =>
    exact lockstep_bind lockstep_get fun t t' h =>
      lockstep_pure (congrArg Reply.file (h.sameRules.resolve? raw).symm)
  | unit f => exact lockstep_bind_eq (lockstep_unitOf hv (hread f rfl)) fun _ => lockstep_pure rfl
  | commit f text =>
    exact lockstep_bind_eq (lockstep_commit hv (hread f rfl) text) fun _ => lockstep_pure rfl
  | reset => exact lockstep_bind_eq lockstep_reset fun _ => lockstep_pure rfl

end Requests

end Provenance.SourceSet
