/-
The same calls on hosts that mirror each other.

Two hosts mirror each other if their disks differ in times and contents alone, and a call
that meets a fault on one of them meets it on the other. The calls of the store then go in
lockstep, and so does the sweep: what it deletes, removes and reports does not depend on
when anything was changed.

There are several relations of this kind, and `Mirroring` is what is asked of one: changes
of both disks have to keep it. The least that it can say is that the disks are alike and
that no faults are shown. A touch then needs no other host to be made on, since it changes
nothing but a time: a host that it was made on is still alike to every host that it was
alike to before.
-/
import Provenance.Proofs.Disk.Skeleton
import Provenance.Proofs.Update.Sweep

set_option autoImplicit false

namespace Provenance

open Action Host

/-! ## Changes that the store makes -/

/-- A change of a disk that the store makes, times aside. -/
inductive StoreChange where
  | createFile
  | makeDirectory
  | unlink
  | removeDirectory

/-- The disk after the change. -/
def StoreChange.on (p : Path) : StoreChange → Disk → Int → Except Errno Disk
  | createFile, d, now => d.createFile p now
  | makeDirectory, d, now => d.makeDirectory p now
  | unlink, d, now => d.unlink p now
  | removeDirectory, d, now => d.removeDirectory p now

/-- On alike disks a change is made or fails, whatever the time. -/
theorem StoreChange.like (change : StoreChange) {p : Path} (hp : p.isAbsolute = true) {d d' : Disk}
    (h : d.Alike d') (now now' : Int) :
    Matched Disk.Alike (change.on p d now) (change.on p d' now') := by
  cases change with
  | createFile => exact Disk.createFile_like hp h now now'
  | makeDirectory => exact Disk.makeDirectory_like hp h now now'
  | unlink => exact Disk.unlink_like hp h now now'
  | removeDirectory => exact Disk.removeDirectory_like hp h now now'

/-! ## Mirroring -/

/-- The host after a change that has taken the time from its clock. -/
def Host.changed (h : Host) (d : Disk) : Host := { h with disk := d, clock := h.clock.next }

/-- A relation between hosts that mirror each other. -/
structure Mirroring (R : Host → Host → Prop) : Prop where
  alike : ∀ {h h'}, R h h' → h.disk.Alike h'.disk
  meetFault : ∀ method path, Lockstep R Eq (meetFault method path) (meetFault method path)
  change : ∀ (change : StoreChange) {p : Path} {h h' : Host} {d d' : Disk}, p.isAbsolute = true →
    R h h' → change.on p h.disk h.clock.now = .ok d → change.on p h'.disk h'.clock.now = .ok d' →
    R (h.changed d) (h'.changed d')

/-- A host mirrors itself. -/
theorem mirroring_eq : Mirroring Eq where
  alike h := congrArg (fun h : Host => h.disk.tree.skeleton) h
  meetFault method path := lockstep_self _
  change change {p h h' d d'} _ heq hd hd' := by
    subst heq
    obtain rfl := Except.ok.inj (hd.symm.trans hd')
    rfl

/-- The disks of the two hosts are alike, and no call on either of them is made to fail. -/
structure Host.Alike (h h' : Host) : Prop where
  disk : h.disk.Alike h'.disk
  faults : h.faults = []
  faults' : h'.faults = []

theorem Host.Alike.symm {h h' : Host} (ha : h.Alike h') : h'.Alike h :=
  ⟨ha.disk.symm, ha.faults', ha.faults⟩

/-- Alike hosts mirror each other. -/
theorem mirroring_alike : Mirroring Host.Alike where
  alike h := h.disk
  meetFault method path := by
    intro h h' ha
    rw [runOn_meetFault_nil ha.faults, runOn_meetFault_nil ha.faults']
    exact abreast_ok rfl ha
  change change {p h h' d d'} hp ha hd hd' := by
    have hlike := change.like hp ha.disk h.clock.now h'.clock.now
    rw [hd, hd'] at hlike
    cases hlike with
    | ok hsame => exact ⟨hsame, ha.faults, ha.faults'⟩

section Mirroring

variable {R : Host → Host → Prop} {α β : Type} {P : α → β → Prop} {path : Path}

/-! ## Calls on the disk -/

theorem lockstep_ask (hR : Mirroring R) {question : Disk → Except Errno α}
    {question' : Disk → Except Errno β}
    (hq : ∀ d d' : Disk, d.Alike d' → Matched P (question d) (question' d')) :
    Lockstep R P (ask path question) (ask path question') := by
  intro h h' ha
  have hmatch := hq _ _ (hR.alike ha)
  rw [runOn_ask, runOn_ask]
  generalize question h.disk = x at hmatch ⊢
  generalize question' h'.disk = y at hmatch ⊢
  cases hmatch with
  | ok hP => exact abreast_ok hP ha
  | error e => exact abreast_error ha

/-- A change is made on both hosts, or fails on both. -/
theorem Mirroring.change_cases (hR : Mirroring R) (change : StoreChange) (hp : path.isAbsolute = true)
    {h h' : Host} (ha : R h h') :
    (∃ e, change.on path h.disk h.clock.now = .error e ∧ change.on path h'.disk h'.clock.now = .error e)
      ∨ ∃ d d', change.on path h.disk h.clock.now = .ok d ∧ change.on path h'.disk h'.clock.now = .ok d'
        ∧ R (h.changed d) (h'.changed d') := by
  have hlike := change.like hp (hR.alike ha) h.clock.now h'.clock.now
  rcases hd : change.on path h.disk h.clock.now with e | d
  all_goals
    rcases hd' : change.on path h'.disk h'.clock.now with e' | d'
    all_goals rw [hd, hd'] at hlike
  · cases hlike
    exact .inl ⟨e, rfl, rfl⟩
  · cases hlike
  · cases hlike
  · exact .inr ⟨d, d', rfl, rfl, hR.change change hp ha hd hd'⟩

theorem lockstep_call (hR : Mirroring R) (change : StoreChange) (hp : path.isAbsolute = true) :
    Lockstep R Eq (call path (change.on path)) (call path (change.on path)) := by
  intro h h' ha
  rcases hR.change_cases change hp ha with ⟨e, he, he'⟩ | ⟨d, d', hd, hd', hafter⟩
  · rw [runOn_call_error he, runOn_call_error he']
    exact abreast_error ha
  · rw [runOn_call_ok hd, runOn_call_ok hd']
    exact abreast_ok rfl hafter

theorem lockstep_hasDirectory (hR : Mirroring R) (hp : path.isAbsolute = true) :
    Lockstep R Eq (ask path (·.hasDirectory path)) (ask path (·.hasDirectory path)) := by
  refine lockstep_ask hR fun d d' ha => ?_
  rw [show d.hasDirectory path = d'.hasDirectory path from
    Disk.holds_like hp ha Entry.isDirectory_kind]
  exact .refl

theorem lockstep_makeDirectory (hR : Mirroring R) (hp : path.isAbsolute = true) :
    Lockstep R Eq (makeDirectory path) (makeDirectory path) := by
  intro h h' ha
  rcases hR.change_cases .makeDirectory hp ha with ⟨e, he, he'⟩ | ⟨d, d', hd, hd', hafter⟩
  · have hsame : h.disk.hasDirectory path = h'.disk.hasDirectory path :=
      Disk.holds_like hp (hR.alike ha) Entry.isDirectory_kind
    rw [runOn_makeDirectory_error he, runOn_makeDirectory_error he', hsame]
    exact ⟨.refl, ha⟩
  · rw [runOn_makeDirectory_ok hd, runOn_makeDirectory_ok hd']
    exact abreast_ok rfl hafter

end Mirroring

/-! ## Calls of the store -/

namespace Store

variable {R : Host → Host → Prop} {h h' : Host} {path root : Path}

theorem lockstep_hasEntry (hR : Mirroring R) (hp : path.isAbsolute = true) :
    Lockstep R Eq (hasEntry path) (hasEntry path) := by
  refine lockstep_ask hR fun d d' ha => ?_
  rw [show d.hasEntry path = d'.hasEntry path from Disk.holds_like hp ha fun _ => rfl]
  exact .refl

/-- The same directories are missing on both hosts. -/
theorem lockstep_missingDirectories (hR : Mirroring R) (k : Nat) (hp : path.isAbsolute = true) :
    Lockstep R (fun a b => a = b ∧ ∀ x ∈ a, x.isAbsolute = true) (missingDirectories k path)
      (missingDirectories k path) := by
  induction k generalizing path with
  | zero =>
    refine lockstep_bind_eq (lockstep_hasEntry hR hp) fun b => ?_
    cases b
    · exact lockstep_pure ⟨rfl, by simpa using hp⟩
    · exact lockstep_pure ⟨rfl, by simp⟩
  | succ k ih =>
    refine lockstep_bind_eq (lockstep_hasEntry hR hp) fun b => ?_
    cases b
    · refine lockstep_bind (ih (show path.parent.isAbsolute = true from hp)) fun above above' habove => ?_
      obtain ⟨rfl, habs⟩ := habove
      refine lockstep_pure ⟨rfl, fun x hx => ?_⟩
      rcases List.mem_append.mp hx with hx | hx
      · exact habs x hx
      · rw [List.mem_singleton.mp hx]
        exact hp
    · exact lockstep_pure ⟨rfl, by simp⟩

/-- The same directories are created on both hosts. -/
theorem lockstep_createDirectories (hR : Mirroring R) (hp : path.isAbsolute = true) :
    Lockstep R (fun a b => a = b ∧ ∀ x ∈ a, x.isAbsolute = true) (createDirectories path)
      (createDirectories path) := by
  refine lockstep_bind_eq (hR.meetFault _ _) fun _ => ?_
  refine lockstep_bind (lockstep_missingDirectories hR _ hp) fun missing missing' hm => ?_
  obtain ⟨rfl, habs⟩ := hm
  refine lockstep_bind_eq
    (lockstep_forM missing fun x hx => lockstep_makeDirectory hR (habs x hx)) fun _ => ?_
  exact lockstep_pure ⟨rfl, habs⟩

theorem lockstep_createIfAbsent (hR : Mirroring R) (hp : path.isAbsolute = true) :
    Lockstep R Eq (createIfAbsent path) (createIfAbsent path) := by
  refine lockstep_bind_eq (hR.meetFault _ _) fun _ => ?_
  intro h h' ha
  rw [runOn_bind_ok (runOn_get h), runOn_bind_ok (runOn_get h')]
  rcases hR.change_cases .createFile hp ha with ⟨e, he, he'⟩ | ⟨d, d', hd, hd', hafter⟩
  · rw [show h.disk.createFile path h.clock.now = .error e from he,
      show h'.disk.createFile path h'.clock.now = .error e from he']
    cases e <;> first | exact abreast_ok rfl ha | exact abreast_error ha
  · rw [show h.disk.createFile path h.clock.now = .ok d from hd,
      show h'.disk.createFile path h'.clock.now = .ok d' from hd']
    exact abreast_ok rfl hafter

theorem lockstep_delete (hR : Mirroring R) (hp : path.isAbsolute = true) :
    Lockstep R Eq (delete path) (delete path) :=
  lockstep_bind_eq (hR.meetFault _ _) fun _ => lockstep_call hR .unlink hp

theorem lockstep_removeDirectory (hR : Mirroring R) (hp : path.isAbsolute = true) :
    Lockstep R Eq (removeDirectory path) (removeDirectory path) :=
  lockstep_bind_eq (hR.meetFault _ _) fun _ => lockstep_call hR .removeDirectory hp

/-- A touch leaves everything but a time as it is. -/
theorem alike_touch {r : Except Failure Unit} {h₁ : Host} (ha : h.Alike h')
    (hr : (touch path).runOn h = (r, h₁)) : h₁.Alike h' := by
  unfold touch at hr
  rw [runOn_bind_ok (runOn_meetFault_nil ha.faults _ _)] at hr
  rcases hc : touched path h.disk h.clock.now with e | d
  · rw [runOn_call_error hc] at hr
    rw [← (Prod.mk.inj hr).2]
    exact ha
  · rw [runOn_call_ok hc] at hr
    obtain ⟨le, -, hset⟩ := except_bind_ok_iff.mp hc
    rw [← (Prod.mk.inj hr).2]
    exact ⟨(Disk.setTime_alike hset).symm.trans ha.disk, ha.faults, ha.faults'⟩

/-! ## What is below a directory -/

section Below

variable {α : Type} {P : List α → List α → Prop} (hR : Mirroring R) (hp : root.isAbsolute = true)
include hR hp

/-- What is looked for below a path is looked for in one directory on both hosts. -/
theorem lockstep_inDirectory {k k' : Location → Action Host (List α)} (hnil : P [] [])
    (hk : ∀ l, Lockstep R P (k l) (k' l)) : Lockstep R P (inDirectory root k) (inDirectory root k') := by
  refine lockstep_bind_eq (lockstep_hasDirectory hR hp) fun b => ?_
  cases b
  · exact lockstep_pure hnil
  · refine lockstep_bind (lockstep_ask hR fun d d' ha => Disk.stat_like hp ha) fun le le' hle => ?_
    obtain ⟨l, e⟩ := le
    obtain ⟨l', e'⟩ := le'
    obtain rfl : l = l' := hle.1
    exact hk l

theorem lockstep_below : Lockstep R (fun xs ys => xs.map Tree.kindAt = ys.map Tree.kindAt) (below root)
    (below root) := by
  rw [below_eq]
  refine lockstep_inDirectory hR hp rfl fun l => ?_
  refine lockstep_bind lockstep_get fun h h' ha => lockstep_pure ?_
  rw [← Tree.inside_skeleton, hR.alike ha, Tree.inside_skeleton]

theorem lockstep_directoriesBelow :
    Lockstep R Eq (directoriesBelow root) (directoriesBelow root) := by
  rw [directoriesBelow_eq]
  refine lockstep_inDirectory hR hp rfl fun l => ?_
  refine lockstep_bind lockstep_get fun h h' ha => lockstep_pure ?_
  have hsame : ∀ t : Tree, (t.at? l).map Tree.directories = (t.skeleton.at? l).map Tree.directories := by
    intro t
    rw [Tree.at?_skeleton, Option.map_map]
    exact congrArg (Option.map · _) (funext fun c => (Tree.directories_skeleton c).symm)
  rw [hsame, hR.alike ha, ← hsame]

/-- The same files are listed on both hosts. -/
theorem lockstep_listFiles :
    Lockstep R (fun a b => a = b ∧ ∀ p ∈ a, p.isAbsolute = true) (listFiles root) (listFiles root) := by
  refine lockstep_bind_eq (hR.meetFault _ _) fun _ => ?_
  refine lockstep_bind (lockstep_below hR hp) fun found found' hfound => ?_
  -- names are what is shown of entries chosen by their kinds
  have hchosen : ∀ (q : Entry → Bool), (∀ e, q e.kind = q e) →
      ((found.filter (q ·.2)).map fun ne => root.descend ne.1)
        = (found'.filter (q ·.2)).map fun ne => root.descend ne.1 :=
    fun q hq => Tree.shown_eq hfound (g := root.descend) fun ne => hq ne.2
  dsimp only
  rw [hchosen Entry.isDirectory Entry.isDirectory_kind]
  split
  · exact lockstep_fail _
  · refine lockstep_pure ⟨hchosen Entry.isFile Entry.isFile_kind, fun p hmem => ?_⟩
    obtain ⟨ne, -, rfl⟩ := List.mem_map.mp hmem
    exact hp

theorem lockstep_removeIfEmpty (todo : List (List Text)) :
    Lockstep R Eq (removeIfEmpty root todo) (removeIfEmpty root todo) := by
  induction todo with
  | nil => exact lockstep_pure rfl
  | cons names todo ih =>
    have habs : (root.descend names).isAbsolute = true := hp
    refine lockstep_bind (lockstep_ask hR fun d d' ha => Disk.stat_like habs ha) fun le le' hle => ?_
    obtain ⟨l, e⟩ := le
    obtain ⟨l', e'⟩ := le'
    obtain rfl : l = l' := hle.1
    refine lockstep_bind lockstep_get fun h h' ha => ?_
    have hempty : h.disk.tree.isEmptyAt l = h'.disk.tree.isEmptyAt l := by
      rw [← Tree.isEmptyAt_skeleton, hR.alike ha, Tree.isEmptyAt_skeleton]
    rw [hempty]
    split
    · refine lockstep_bind_eq (lockstep_removeDirectory hR habs) fun _ => ?_
      exact lockstep_bind_eq ih fun removed => lockstep_pure rfl
    · exact ih

theorem lockstep_removeEmptyDirectories :
    Lockstep R Eq (removeEmptyDirectories root) (removeEmptyDirectories root) := by
  refine lockstep_bind_eq (hR.meetFault _ _) fun _ => ?_
  refine lockstep_bind_eq (lockstep_directoriesBelow hR hp) fun listed => ?_
  dsimp only
  split
  · exact lockstep_fail _
  · refine lockstep_bind_eq (lockstep_removeIfEmpty hR hp _) fun removed => ?_
    exact lockstep_pure rfl

end Below

end Store

/-! ## The sweep -/

namespace Update

variable {R : Host → Host → Prop} {l : Layout} {entries : Entries}

theorem lockstep_tolerate {α : Type} {P : α → α → Prop} {act : Action Host α} (h : Lockstep R P act act) :
    Lockstep R (Matched P) (tolerate act) (tolerate act) := by
  refine lockstep_bind (lockstep_attempt h) fun r r' hr => ?_
  cases hr with
  | ok hP => exact lockstep_pure (.ok hP)
  | error f =>
    dsimp only
    split
    · exact lockstep_pure (.error _)
    · exact lockstep_throw f

theorem lockstep_key (p : Path) : Lockstep R Eq (l.key p) (l.key p) :=
  lockstep_ofExcept .refl

theorem lockstep_keys (ps : List Path) : Lockstep R Eq (l.keys ps) (l.keys ps) := by
  induction ps with
  | nil => exact lockstep_pure rfl
  | cons p ps ih =>
    refine lockstep_bind_eq (lockstep_key p) fun key => ?_
    exact lockstep_bind_eq ih fun keys => lockstep_pure rfl

theorem lockstep_sweepFiles (hR : Mirroring R) (files : List Path) (hfiles : ∀ p ∈ files, p.isAbsolute = true) :
    Lockstep R Eq (sweepFiles l entries files) (sweepFiles l entries files) := by
  induction files with
  | nil => exact lockstep_pure rfl
  | cons file files ih =>
    have hrest := ih fun p hp => hfiles p (List.mem_cons_of_mem _ hp)
    refine lockstep_bind_eq (lockstep_key file) fun key => ?_
    dsimp only
    split
    · exact hrest
    · refine lockstep_bind (lockstep_tolerate (Store.lockstep_delete hR (hfiles file
        (List.mem_cons_self ..)))) fun r r' hr => ?_
      cases hr with
      | ok _ =>
        refine lockstep_bind_eq hrest fun swept => ?_
        exact lockstep_pure rfl
      | error e =>
        refine lockstep_bind_eq hrest fun swept => ?_
        exact lockstep_pure rfl

theorem lockstep_pruneDirs (hR : Mirroring R) (hp : l.outputRoot.isAbsolute = true) :
    Lockstep R Eq (pruneDirs l) (pruneDirs l) := by
  refine lockstep_bind (lockstep_tolerate (Store.lockstep_removeEmptyDirectories hR hp)) fun r r' hr => ?_
  cases hr with
  | ok hdirs =>
    subst hdirs
    refine lockstep_bind_eq (lockstep_keys _) fun keys => ?_
    exact lockstep_pure rfl
  | error e =>
    refine lockstep_bind_eq (lockstep_key _) fun key => ?_
    exact lockstep_pure rfl

/-- A sweep does the same on hosts that are alike. -/
theorem lockstep_sweep (hR : Mirroring R) (hp : l.outputRoot.isAbsolute = true) :
    Lockstep R Eq (sweep l entries) (sweep l entries) := by
  refine lockstep_bind (lockstep_tolerate (Store.lockstep_listFiles hR hp)) fun r r' hr => ?_
  cases hr with
  | error e =>
    refine lockstep_bind_eq (lockstep_key _) fun key => ?_
    exact lockstep_pure rfl
  | ok hfiles =>
    obtain ⟨rfl, habs⟩ := hfiles
    refine lockstep_bind_eq (lockstep_sweepFiles hR _ habs) fun swept => ?_
    dsimp only
    split
    · refine lockstep_bind_eq (lockstep_pruneDirs hR hp) fun pruned => ?_
      exact lockstep_pure rfl
    · exact lockstep_pure rfl

end Update

end Provenance
