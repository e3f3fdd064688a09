/-
What an update does outside the output directory.

An update makes directories and files, moves times, takes back what it has made and sweeps.
All of this happens below the output directory, as long as no link leads out of it, with one
exception: directories that are missing on the way to the output directory are made as
well, and taken back if the update fails. Making and removing an entry moves the time of
the directory that it is in. So of the entries that are not below the output directory none
changes, but for those on the way to it (`Spared`).

Making and sweeping stay within the output directory step by step. Taking back does not: it
removes directories on the way, and that is right only because the update has made them. So what
is taken back is told of the disk that the update began with (`Reversible`).
-/
import Provenance.Proofs.Disk.Plain
import Provenance.Proofs.Update.Cycle
import Provenance.Proofs.Update.Pruning

set_option autoImplicit false

namespace Provenance

/-! ## Trees changed below a location -/

namespace Tree

variable {t t' t'' : Tree} {root x dir : Location} {n : Text} {e : Entry} {now : Int}

/-- What may happen to an entry that is not below `root`, when everything else happens below it. -/
inductive Spared (root : Location) (t t' : Tree) (x : Location) : Prop
  /-- nothing -/
  | same (h : t'.find? x = t.find? x)
  /-- a directory on the way is made -/
  | made (hway : x <+: root) (hnone : t.find? x = none) (hdir : t'.isDirectory x = true)
  /-- the time of a directory on the way moves, where the next on the way was missing -/
  | stamped (hway : x <+: root) (hdir : t.isDirectory x = true) (hdir' : t'.isDirectory x = true)
    (hnext : ∀ n, x ++ [n] <+: root → t.find? (x ++ [n]) = none)

/-- One tree differs from another one below `root`, and on the way to it. -/
def Confined (root : Location) (t t' : Tree) : Prop :=
  ∀ x, (root <+: x → x = root) → Spared root t t' x

theorem Spared.congr (h : Spared root t t' x) (hx : t''.find? x = t'.find? x) : Spared root t t'' x := by
  have hdir : t''.isDirectory x = t'.isDirectory x := by rw [isDirectory, isDirectory, hx]
  cases h with
  | same h => exact .same (hx.trans h)
  | made hway hnone hmade => exact .made hway hnone (hdir.trans hmade)
  | stamped hway hold hnew hnext => exact .stamped hway hold (hdir.trans hnew) hnext

/-- The time of a directory may move if the next on the way was missing. -/
theorem Spared.stamp (h : Spared root t t' x) (hway : x <+: root) (hdir : t'.isDirectory x = true)
    (hdir' : t''.isDirectory x = true) (hnext : ∀ n, x ++ [n] <+: root → t.find? (x ++ [n]) = none) :
    Spared root t t'' x := by
  cases h with
  | same h => exact .stamped hway (by rwa [isDirectory, ← h]) hdir' hnext
  | made _ hnone _ => exact .made hway hnone hdir'
  | stamped _ hold _ _ => exact .stamped hway hold hdir' hnext

/-- What is missing was missing before, or is below `root`. -/
theorem Spared.find?_eq_none (h : Spared root t t' x) (hx : t'.find? x = none) : t.find? x = none := by
  have hnot : t'.isDirectory x ≠ true := by simp [isDirectory, hx]
  cases h with
  | same h => rw [← h, hx]
  | made _ hnone _ => exact hnone
  | stamped _ _ hdir _ => exact absurd hdir hnot

theorem eq_of_prefix_of_prefix (h : x <+: root) (h' : root <+: x) : x = root :=
  h.eq_of_length_le h'.length_le

theorem Confined.refl (root : Location) (t : Tree) : Confined root t t := fun _ _ => .same rfl

theorem Confined.trans (h : Confined root t t') (h' : Confined root t' t'') : Confined root t t'' := by
  intro x hx
  have hfirst := h x hx
  cases h' x hx with
  | same hsame => exact hfirst.congr hsame
  | made hway hnone hdir => exact .made hway (hfirst.find?_eq_none hnone) hdir
  | stamped hway hdir hdir' hnext =>
    refine hfirst.stamp hway hdir hdir' fun n hn => ?_
    exact (h _ fun hback => eq_of_prefix_of_prefix hn hback).find?_eq_none (hnext n hn)

/-- Two names that go on from one location on the way are one. -/
theorem eq_of_concat_prefix {m : Text} (h : dir ++ [n] <+: root) (h' : dir ++ [m] <+: root) : n = m := by
  have heq := List.prefix_of_prefix_length_le h h' (by simp)
  simpa using heq.eq_of_length (by simp)

theorem concat_ne_of_onward (h : root <+: dir) (n : Text) : dir ++ [n] ≠ root := by
  intro heq
  have hlen := h.length_le
  rw [← heq, List.length_append, List.length_singleton] at hlen
  omega

/-- A location is on the way to `root` and a directory is made there, or it is below `root`. -/
def Admits (root dir : Location) (n : Text) (e : Entry) : Prop :=
  dir ++ [n] <+: root ∧ e.isDirectory = true ∨ root <+: dir

/-- An entry is made where it is admitted. -/
theorem confined_add (hdir : t.isDirectory dir = true) (hnone : t.find? (dir ++ [n]) = none)
    (hadmits : Admits root dir n e) : Confined root t (t.add (dir ++ [n]) e now) := by
  have hfind := find?_add (isSome_find?_of_isDirectory hdir) n e now
  intro x hx
  -- what changes is the entry that is made and the time of the directory that it is in
  by_cases hnew : x = dir ++ [n]
  · subst hnew
    rcases hadmits with ⟨hway, he⟩ | hbelow
    · exact .made hway hnone (by rw [isDirectory, hfind, if_pos rfl]; exact he)
    · exact absurd (hx (hbelow.trans (List.prefix_append dir [n]))) (concat_ne_of_onward hbelow n)
  by_cases hparent : x = dir
  · subst hparent
    have hdir' : (t.add (x ++ [n]) e now).isDirectory x = true := by
      obtain ⟨time, hold⟩ := isDirectory_iff.mp hdir
      rw [isDirectory, hfind, if_neg hnew, if_pos rfl, hold]
      rfl
    rcases hadmits with ⟨hway, -⟩ | hbelow
    · refine .stamped ((List.prefix_append x [n]).trans hway) hdir hdir' fun m hm => ?_
      rw [← eq_of_concat_prefix hway hm]
      exact hnone
    · obtain rfl := hx hbelow
      refine .stamped (List.prefix_refl _) hdir hdir' fun m hm => ?_
      exact absurd hm.length_le (by simp)
  · exact .same (by rw [hfind, if_neg hnew, if_neg hparent])

/-- An entry with nothing below it is removed that was made since, or is below `root`. -/
theorem Confined.remove (h : Confined root t t') (hempty : t'.isEmptyAt (dir ++ [n]) = true)
    (hdir : t'.isDirectory dir = true)
    (hnew : dir ++ [n] <+: root ∧ t.find? (dir ++ [n]) = none ∨ root <+: dir) :
    Confined root t (t'.remove (dir ++ [n]) now) := by
  have hfind : ∀ x, (t'.remove (dir ++ [n]) now).find? x = _ := find?_remove t' n now
  intro x hx
  -- what changes is what was at the location or below it, and the time of the directory above
  have hold := h x hx
  by_cases hgone : dir ++ [n] <+: x
  · obtain ⟨ms, rfl⟩ := hgone
    cases ms with
    | cons m ms =>
      -- nothing was below it
      refine hold.congr ?_
      rw [hfind, if_pos (List.prefix_append _ _), find?_below_of_isEmptyAt hempty]
    | nil =>
      rw [List.append_nil] at hx ⊢
      rcases hnew with ⟨-, hnone⟩ | hbelow
      · exact .same (by rw [hfind, if_pos (List.prefix_refl _), hnone])
      · exact absurd (hx (hbelow.trans (List.prefix_append dir [n]))) (concat_ne_of_onward hbelow n)
  by_cases hparent : x = dir
  · subst hparent
    have hdir' : (t'.remove (x ++ [n]) now).isDirectory x = true := by
      obtain ⟨time, hthere⟩ := isDirectory_iff.mp hdir
      rw [isDirectory, hfind, if_neg hgone, if_pos rfl, hthere]
      rfl
    rcases hnew with ⟨hway, hnone⟩ | hbelow
    · refine hold.stamp ((List.prefix_append x [n]).trans hway) hdir hdir' fun m hm => ?_
      rw [← eq_of_concat_prefix hway hm]
      exact hnone
    · obtain rfl := hx hbelow
      refine hold.stamp (List.prefix_refl _) hdir hdir' fun m hm => ?_
      exact absurd hm.length_le (by simp)
  · exact hold.congr (by rw [hfind, if_neg hgone, if_neg hparent])

/-- A time is moved below `root`. -/
theorem confined_stamp (hbelow : root <+: x) (hne : x ≠ root) (time : Int) :
    Confined root t (t.stamp x time) := by
  intro y hy
  have hother : y ≠ x := by
    rintro rfl
    exact hne (hy hbelow)
  exact .same (by rw [find?_stamp, if_neg hother])

/-! ## Links along a location -/

/-- Where an entry was made that is no link there is no link after that either. -/
theorem ClearAlong.of_shape (h : t.ClearAlong root)
    (hs : ∀ l e, t'.shape l = some e → e.isLink = true → t.shape l = some e) : t'.ClearAlong root := by
  intro l e hway he
  by_contra hlink
  have hlink : e.timeless.isLink = true := by simpa using hlink
  obtain ⟨e', hfind, htimeless⟩ := Option.map_eq_some_iff.mp (hs l e.timeless (shape_of_find? he) hlink)
  have hnot : e'.isLink = false := h l e' hway hfind
  rw [← Entry.isLink_timeless, htimeless, hlink] at hnot
  exact Bool.noConfusion hnot

end Tree

namespace Update

open Action Host Cycle

variable {l : Layout} {t₀ : Tree} {d d' : Disk} {p q : Path} {h h' : Host} {c c' : Cycle}
  {dir : Location} {n : Text} {e : Entry} {now : Int} {follow : Bool}

/-! ## Disks -/

/-- A disk that an update has come to from a tree without a link along the output directory: outside
that directory it differs from the tree only as it may. -/
structure Within (l : Layout) (t₀ : Tree) (d : Disk) : Prop where
  legal : d.Legal
  clear : d.tree.ClearAlong l.outputRoot.names
  confined : t₀.Confined l.outputRoot.names d.tree

/-- A path is on the way to the output directory, or goes on from it. -/
def Layout.Along (l : Layout) (p : Path) : Prop :=
  p.Straight ∧ (p.names <+: l.outputRoot.names ∨ l.outputRoot.names <+: p.names)

theorem Layout.Along.parent (h : l.Along p) : l.Along p.parent :=
  ⟨h.1.parent, Disk.onward_or_of_onward (List.dropLast_prefix _) h.2⟩

theorem Layout.Sound.along (hl : l.Sound) (hp : p.Below l.outputRoot) : l.Along p := by
  refine ⟨hl.straight hp, .inr ?_⟩
  obtain ⟨names, -, -, rfl⟩ := hp
  exact List.prefix_append _ _

/-- What is below the output directory is in a directory below it, or in it. -/
theorem Layout.prefix_parent (hp : p.Below l.outputRoot) (h : dir ++ [n] = p.names) :
    l.outputRoot.names <+: dir := by
  obtain ⟨names, hne, -, rfl⟩ := hp
  obtain ⟨ms, m, rfl⟩ := (List.eq_nil_or_concat names).resolve_left hne
  rw [List.concat_eq_append, Path.descend, ← List.append_assoc] at h
  rw [(List.append_inj' h rfl).1]
  exact List.prefix_append _ _

theorem Within.add (h : Within l t₀ d) (hp : p.Straight)
    (hpl : d.place follow p = .ok (.absent dir n)) (he : e.isLink = false)
    (hadmits : Tree.Admits l.outputRoot.names dir n e) : Within l t₀ (d.withTree (d.tree.add (dir ++ [n]) e now)) := by
  obtain ⟨hdir, hnone, -⟩ := Disk.place_absent h.legal.tree hp hpl
  refine ⟨h.legal.add hp hpl he, h.clear.of_shape fun x e' hx hlink => ?_,
    h.confined.trans (Tree.confined_add hdir hnone hadmits)⟩
  rw [Disk.tree_withTree, Tree.shape_add (Tree.isSome_find?_of_isDirectory hdir)] at hx
  split at hx
  · rw [← Option.some.inj hx, Entry.isLink_timeless, he] at hlink
    exact Bool.noConfusion hlink
  · exact hx

/-- A directory that is made along the output directory is where its names say. -/
theorem Within.makeDirectory (h : Within l t₀ d) (hp : l.Along p)
    (hc : d.makeDirectory p now = .ok d') : Within l t₀ d' := by
  obtain ⟨dir, n, hpl, rfl⟩ := Disk.makeDirectory_ok hc
  refine h.add hp.1 hpl rfl ?_
  rcases Disk.place_along h.clear hp.1 hp.2 hpl with ⟨e, heq, -⟩ | ⟨dir', n', heq, hnames⟩
  · simp at heq
  obtain ⟨rfl, rfl⟩ := Disk.Place.absent.inj heq
  by_cases hway : p.names <+: l.outputRoot.names
  · exact .inl ⟨hnames ▸ hway, rfl⟩
  · have hbelow := hp.2.resolve_left hway
    rw [← hnames] at hbelow hway
    refine .inr ((List.prefix_concat_iff.mp hbelow).resolve_left fun heq => ?_)
    exact hway (heq ▸ List.prefix_refl _)

/-- A path below the output directory leads to its location. -/
theorem Within.place (h : Within l t₀ d) (hl : l.Sound) (hp : p.Below l.outputRoot)
    {x : Location} (hpl : d.place follow p = .ok (.present x e)) : x = p.names := by
  rcases Disk.place_along h.clear (hl.along hp).1 (hl.along hp).2 hpl with ⟨e', heq, -⟩ | ⟨_, _, heq, -⟩
  · exact (Disk.Place.present.inj heq).1
  · simp at heq

theorem Within.createFile (h : Within l t₀ d) (hl : l.Sound) (hp : p.Below l.outputRoot)
    (hc : d.createFile p now = .ok d') : Within l t₀ d' := by
  obtain ⟨dir, n, hpl, rfl⟩ := Disk.createFile_ok hc
  refine h.add (hl.straight hp) hpl rfl (.inr ?_)
  rcases Disk.place_along h.clear (hl.along hp).1 (hl.along hp).2 hpl with ⟨e, heq, -⟩ | ⟨dir', n', heq, hnames⟩
  · simp at heq
  obtain ⟨rfl, rfl⟩ := Disk.Place.absent.inj heq
  exact Layout.prefix_parent hp hnames

theorem Within.setTime (h : Within l t₀ d) (hl : l.Sound) (hp : p.Below l.outputRoot)
    {time : Int} (hc : d.setTime p time = .ok d') : Within l t₀ d' := by
  obtain ⟨x, e, hpl, rfl⟩ := Disk.setTime_ok hc
  obtain rfl := h.place hl hp hpl
  refine ⟨h.legal.setTime hc, h.clear.of_shape fun y e' hy _ => ?_, h.confined.trans ?_⟩
  · rwa [Disk.tree_withTree, Tree.shape_stamp] at hy
  · obtain ⟨names, hne, -, rfl⟩ := hp
    exact Tree.confined_stamp (List.prefix_append _ _) (by simp [hne]) time

/-- A path along the output directory may be removed: it goes on from there, or it was missing to begin
with. -/
def Removable (l : Layout) (t₀ : Tree) (p : Path) : Prop :=
  p.Below l.outputRoot
    ∨ p.Straight ∧ p.names <+: l.outputRoot.names ∧ t₀.find? p.names = none

theorem Removable.along (hl : l.Sound) (hp : Removable l t₀ p) : l.Along p :=
  hp.elim hl.along fun h => ⟨h.1, .inl h.2.1⟩

/-- An entry with nothing below it is removed. -/
theorem Within.remove (h : Within l t₀ d) (hl : l.Sound) (hp : Removable l t₀ p)
    {x : Location} (hpl : d.place false p = .ok (.present x e)) (hx : x ≠ [])
    (hempty : d.tree.isEmptyAt x = true) :
    Within l t₀ (d.withTree (d.tree.remove x now)) := by
  have halong := hp.along hl
  rcases Disk.place_along h.clear halong.1 halong.2 hpl with ⟨e', heq, hfind⟩ | ⟨_, _, heq, -⟩
  swap
  · simp at heq
  obtain ⟨rfl, rfl⟩ := Disk.Place.present.inj heq
  refine ⟨h.legal.withTree (h.legal.tree.remove hx now), ?_, ?_⟩
  · exact h.clear.of_shape fun y e' hy _ => keeps_remove d.tree p.names now y e' hy
  obtain ⟨dir, n, hnames⟩ := (List.eq_nil_or_concat p.names).resolve_left hx
  rw [List.concat_eq_append] at hnames
  rw [hnames] at hempty hfind ⊢
  refine h.confined.remove hempty ?_ ?_
  · exact h.legal.tree.isDirectory_of_below (m := [n]) (by simp) (by rw [hfind]; rfl)
  · rcases hp with hp | ⟨-, hway, hnone⟩
    · exact .inr (Layout.prefix_parent hp hnames.symm)
    · rw [hnames] at hway hnone
      exact .inl ⟨hway, hnone⟩

theorem Within.unlink (h : Within l t₀ d) (hl : l.Sound) (hp : p.Below l.outputRoot)
    (hc : d.unlink p now = .ok d') : Within l t₀ d' := by
  obtain ⟨x, e, hpl, he, rfl⟩ := Disk.unlink_ok hc
  have hfind := Disk.place_present_of_not_directory hpl he
  have hnot : d.tree.isDirectory x = false := by rw [Tree.isDirectory, hfind]; exact he
  refine h.remove hl (.inl hp) hpl ?_ (h.legal.tree.isEmptyAt hnot)
  rintro rfl
  rw [h.legal.tree.isDirectory_nil] at hnot
  exact Bool.noConfusion hnot

theorem Within.removeDirectory (h : Within l t₀ d) (hl : l.Sound)
    (hp : Removable l t₀ p) (hc : d.removeDirectory p now = .ok d') : Within l t₀ d' := by
  obtain ⟨x, time, hpl, hx, hempty, rfl⟩ := Disk.removeDirectory_ok hc
  exact h.remove hl hp hpl hx hempty

/-! ## The calls of the store -/

/-- A disk that an update has come to is left as one. -/
def StaysWithin (l : Layout) (t₀ : Tree) (d d' : Disk) : Prop :=
  Within l t₀ d → Within l t₀ d'

theorem stepwise_staysWithin (l : Layout) (t₀ : Tree) : Stepwise (Across (StaysWithin l t₀)) :=
  stepwise_across (fun _ h => h) fun h h' hw => h' (h hw)

section Store

variable (hl : l.Sound) (hp : p.Below l.outputRoot)
include hl hp

theorem staysWithin_createDirectories :
    Respects (Across (StaysWithin l t₀)) (Store.createDirectories p.parent) := by
  have halong := (hl.along hp).parent
  refine Store.respects_createDirectories (stepwise_staysWithin l t₀) halong.1
    fun x hx hway d now d' hc hw => hw.makeDirectory ⟨hx, ?_⟩ hc
  exact Disk.onward_or_of_onward hway halong.2

theorem staysWithin_createIfAbsent :
    Respects (Across (StaysWithin l t₀)) (Store.createIfAbsent p) :=
  Store.respects_createIfAbsent (stepwise_staysWithin l t₀) fun _ _ _ hc hw => hw.createFile hl hp hc

theorem staysWithin_touch : Respects (Across (StaysWithin l t₀)) (Store.touch p) :=
  Store.respects_touch (stepwise_staysWithin l t₀) fun _ _ _ hc hw => hw.setTime hl hp hc

theorem staysWithin_delete : Respects (Across (StaysWithin l t₀)) (Store.delete p) := by
  have hR := stepwise_staysWithin l t₀
  apply respects_bind hR (respects_meetFault hR _ _)
  intro _
  exact respects_call hR fun _ _ _ hc hw => hw.unlink hl hp hc

omit hp in
theorem staysWithin_removeDirectory (hp : Removable l t₀ p) :
    Respects (Across (StaysWithin l t₀)) (Store.removeDirectory p) := by
  have hR := stepwise_staysWithin l t₀
  apply respects_bind hR (respects_meetFault hR _ _)
  intro _
  exact respects_call hR fun _ _ _ hc hw => hw.removeDirectory hl hp hc

end Store

/-! ## Making and taking back -/

/-- An update that stays within the output directory: its disk does, and what it has noted to take back
may be removed. -/
structure Reversible (l : Layout) (t₀ : Tree) (c : Cycle) : Prop where
  within : Within l t₀ c.host.disk
  created : ∀ kp ∈ c.pending.created, kp.2.Below l.outputRoot
  createdDirs : ∀ dir ∈ c.pending.createdDirs, Removable l t₀ dir

/-- An update that stays within the output directory goes on to do so. -/
def StaysReversible (l : Layout) (t₀ : Tree) (c c' : Cycle) : Prop :=
  Reversible l t₀ c → Reversible l t₀ c'

theorem stepwise_staysReversible (l : Layout) (t₀ : Tree) : Stepwise (StaysReversible l t₀) :=
  ⟨fun _ h => h, fun h h' hc => h' (h hc)⟩

theorem staysReversible_onHost {α : Type} {act : Action Host α}
    (h : Respects (Across (StaysWithin l t₀)) act) : Respects (StaysReversible l t₀) (onHost act) :=
  fun c hc => ⟨h c.host hc.within, hc.created, hc.createdDirs⟩

theorem staysReversible_note {change : Pending → Pending}
    (hcreated : ∀ p, ∀ kp ∈ (change p).created, kp ∈ p.created ∨ kp.2.Below l.outputRoot)
    (hdirs : ∀ p, ∀ dir ∈ (change p).createdDirs, dir ∈ p.createdDirs ∨ Removable l t₀ dir) :
    Respects (StaysReversible l t₀) (note change) :=
  fun c hc => ⟨hc.within, fun kp hkp => (hcreated c.pending kp hkp).elim (hc.created kp) id,
    fun dir hdir => (hdirs c.pending dir hdir).elim (hc.createdDirs dir) id⟩

/-- The directories that are made for an artifact may be removed again: those that are not below the
output directory were missing when the update began. -/
theorem removable_of_createDirectories (hl : l.Sound) (hp : p.Below l.outputRoot)
    (hw : Within l t₀ h.disk) {dirs : List Path}
    (hr : (Store.createDirectories p.parent).runOn h = (.ok dirs, h')) :
    ∀ dir ∈ dirs, Removable l t₀ dir := by
  have halong := (hl.along hp).parent
  obtain ⟨_, h₁, hfault, hrest⟩ := bind_ok_iff.mp hr
  have hsame := disk_of_meetFault hfault
  obtain ⟨missing, h₂, hmissing, hrest⟩ := bind_ok_iff.mp hrest
  obtain ⟨_, h₃, -, hpure⟩ := bind_ok_iff.mp hrest
  obtain rfl : missing = dirs := Except.ok.inj (Prod.mk.inj hpure).1
  rw [← hsame] at hw
  obtain ⟨-, q, ns, hdescend, rfl, -, hnone⟩ :=
    Store.missingDirectories_ok hw.legal.tree halong.1 hmissing
  intro dir hdir
  obtain ⟨hanchor, hway⟩ := Store.mem_missingDirectories _ _ _ _ _ hmissing dir hdir
  have hstraight : dir.Straight :=
    ⟨hanchor.trans halong.1.root, fun n hn => halong.1.names n (hway.subset hn)⟩
  have hto := Disk.onward_or_of_onward hway halong.2
  by_cases hon : dir.names <+: l.outputRoot.names
  · have hfind := Disk.find?_of_hasEntry_false hw.legal.tree hw.clear hstraight hto (hnone dir hdir)
    have hspared := hw.confined dir.names fun hback => Tree.eq_of_prefix_of_prefix hon hback
    exact .inr ⟨hstraight, hon, hspared.find?_eq_none hfind⟩
  · obtain ⟨names, hnames⟩ := hto.resolve_left hon
    refine .inl ⟨names, ?_, fun n hn => ?_, ?_⟩
    · rintro rfl
      rw [List.append_nil] at hnames
      exact hon (hnames ▸ List.prefix_refl _)
    · exact hstraight.names n (by rw [← hnames]; exact List.mem_append_right _ hn)
    · have hroot := (hl.output.straight hl.root).root
      rw [Path.descend, hnames, hroot, ← hstraight.root]

/-- Each step of an update stays within the output directory. -/
theorem keptSteps_staysReversible (hl : l.Sound) :
    KeptSteps (StaysReversible l t₀) (·.Below l.outputRoot) where
  stepwise := stepwise_staysReversible l t₀
  sources act := fun c hc => ⟨hc.within, hc.created, hc.createdDirs⟩
  record a sources := staysReversible_note (fun _ kp hkp => .inl hkp) fun _ dir hdir => .inl hdir
  touch a ha := by
    refine respects_bind (stepwise_staysReversible l t₀)
      (staysReversible_onHost (staysWithin_touch hl ha)) fun _ => ?_
    exact staysReversible_note (fun _ kp hkp => .inl hkp) fun _ dir hdir => .inl hdir
  materialize a ha := by
    have hR := stepwise_staysReversible l t₀
    -- which directories are made is known only on a disk that stays within the output directory
    refine respects_bind_under hR (I := Reversible l t₀) (fun h hc => h hc hc)
      (staysReversible_onHost (staysWithin_createDirectories hl ha))
      (P := fun dirs => ∀ dir ∈ dirs, Removable l t₀ dir) ?_ fun dirs hdirs => ?_
    · intro c dirs c' hc hr
      rw [runOn_onHost] at hr
      exact removable_of_createDirectories hl ha hc.within (Prod.ext (Prod.mk.inj hr).1 rfl)
    refine respects_bind hR (staysReversible_note (fun _ kp hkp => .inl hkp) fun _ dir hdir => ?_)
      fun _ => ?_
    · exact (List.mem_append.mp hdir).imp id (hdirs dir)
    apply respects_bind hR (staysReversible_onHost (staysWithin_createIfAbsent hl ha))
    intro created
    cases created
    · exact respects_pure hR _
    · refine respects_bind hR (staysReversible_note (fun p kp hkp => ?_) fun _ dir hdir => .inl hdir)
        fun _ => respects_pure hR _
      rcases List.mem_append.mp hkp with hkp | hkp
      · exact .inl (List.mem_of_mem_filter hkp)
      · rw [List.mem_singleton.mp hkp]
        exact .inr ha

/-- What was made is taken back, and nothing else. -/
theorem Reversible.rollback (hl : l.Sound) (hc : Reversible l t₀ c) :
    Within l t₀ ((rollback c.pending).runOn c.host).2.disk :=
  respects_rollback (stepwise_staysWithin l t₀) c.pending
    (fun kp hkp => staysWithin_delete hl (hc.created kp hkp))
    (fun dir hdir => staysWithin_removeDirectory hl (hc.createdDirs dir hdir)) c.host hc.within

/-! ## Sweeping -/

/-- A sweep deletes and removes what is below the output directory. -/
theorem staysWithin_sweep (hl : l.Sound) (entries : Entries) :
    Respects (Across (StaysWithin l t₀)) (sweep l entries) := by
  have hR := stepwise_staysWithin l t₀
  have habs := (hl.output.straight hl.root).isAbsolute
  have hI : ∀ {h h' : Host}, (Within l t₀ h.disk → Across (StaysWithin l t₀) h h') →
      Across (StaysWithin l t₀) h h' := fun h hw => h hw hw
  refine respects_sweep_of (I := fun h => Within l t₀ h.disk)
    (Q := fun p => p.Below l.outputRoot) hR hI l entries
    (fun h files h' hw hr p hp => ?_) (fun p hp => staysWithin_delete hl hp) ?_
  · obtain ⟨loc, e, names, -, -, hne, hn, rfl, -⟩ :=
      (((Store.listFiles_ok hw.legal habs hr).2 p).mp hp).cases hw.legal.tree
    exact ⟨names, hne, hn, rfl⟩
  · refine Store.respects_removeEmptyDirectories_of (I := fun h => Within l t₀ h.disk)
      (Q := fun names => (l.outputRoot.descend names).Below l.outputRoot) hR hI _
      (fun h found h' hw hr names hmem => ?_)
      fun names hp => staysWithin_removeDirectory hl (.inl hp)
    obtain ⟨loc, e, -, hne, hdir, -⟩ := ((Store.directoriesBelow_ok habs hw.legal hr).2 names).mp hmem
    refine ⟨names, hne, fun n hn => ?_, rfl⟩
    exact hw.legal.tree.nodes.isName (Tree.isSome_find?_of_isDirectory hdir) n
      (List.mem_append_right _ hn)

end Update

end Provenance
