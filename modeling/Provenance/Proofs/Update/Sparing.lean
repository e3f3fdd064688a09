/-
What an update takes away.

An update takes things away at two places. When it fails it takes back what it has made,
and when it has been published the sweep deletes files and removes empty directories.
Taking back can itself be broken off by a crash, and deleting can fail. Whatever happens,
the first takes away nothing that was there before, and of the files only those go in the
second that lie below the output directory and have no source in what was published.
-/
import Provenance.Proofs.Update.Clearing
import Provenance.Proofs.Update.Rollback

set_option autoImplicit false

namespace Provenance.Update

open Action Host Cycle

variable {l : Layout} {before : Tree} {h h' : Host} {m : Made} {rest kept xs : List Made}

/-! ## Taking back -/

/-- What a call leaves on the host it leaves there when it undoes something. -/
theorem host_undo (label : Text) (act : Action Host Unit) (h : Host) :
    ((undo label act).runOn h).2 = (act.runOn h).2 := by
  unfold undo
  rw [runOn_bind, runOn_attempt]
  dsimp only
  rcases act.runOn h with ⟨f | u, h'⟩
  · dsimp only
    cases f.cause <;> rfl
  · rfl

/-- A call that takes something away, and nothing with something in it, leaves it or takes it away,
and leaves the rest as it was. -/
theorem grown_method (method : StoreMethod) (change : Disk → Int → Except Errno Disk)
    (hg : Grown before h.disk.tree (m :: rest))
    (hchange : ∀ d, change h.disk h.clock.now = .ok d →
      h.disk.tree.isEmptyAt m.location = true
        ∧ d = h.disk.withTree (h.disk.tree.remove m.location h.clock.now)) :
    Grown before ((meetFault method m.path >>= fun _ => call m.path change).runOn h).2.disk.tree rest
      ∨ Grown before
        ((meetFault method m.path >>= fun _ => call m.path change).runOn h).2.disk.tree (m :: rest) := by
  rcases method_cases method m.path change h with ⟨fault, -, hrun⟩ | ⟨e, -, hrun⟩ | ⟨d, hc, hrun⟩
  · rw [hrun]; exact .inr hg
  · rw [hrun]; exact .inr hg
  · obtain ⟨hempty, rfl⟩ := hchange d hc
    rw [hrun]; exact .inl (hg.removed hempty h.clock.now)

theorem grown_delete (hg : Grown before h.disk.tree (m :: rest))
    (hleads : Disk.LeadsTo h.disk.tree m.path m.location) :
    Grown before ((Store.delete m.path).runOn h).2.disk.tree rest
      ∨ Grown before ((Store.delete m.path).runOn h).2.disk.tree (m :: rest) := by
  apply grown_method _ _ hg
  intro d hc
  obtain ⟨x, e, hpl, hdir, rfl⟩ := Disk.unlink_ok hc
  obtain ⟨rfl, hfind⟩ := hg.find?_of_place hleads hpl
  exact ⟨hg.legal.isEmptyAt (by simp [Tree.isDirectory, hfind, hdir]), rfl⟩

theorem grown_removeDirectory (hg : Grown before h.disk.tree (m :: rest))
    (hleads : Disk.LeadsTo h.disk.tree m.path m.location) :
    Grown before ((Store.removeDirectory m.path).runOn h).2.disk.tree rest
      ∨ Grown before ((Store.removeDirectory m.path).runOn h).2.disk.tree (m :: rest) := by
  apply grown_method _ _ hg
  intro d hc
  obtain ⟨x, time, hpl, -, hempty, rfl⟩ := Disk.removeDirectory_ok hc
  obtain ⟨rfl, -⟩ := hg.find?_of_place hleads hpl
  exact ⟨hempty, rfl⟩

/-- Things are taken back one after the other. What was there before stays, even if a crash ends
that early. -/
theorem grown_undoAll (act : Made → Action Host Unit) (hg : Grown before h.disk.tree (xs ++ kept))
    (step : ∀ m rest, m :: rest <:+ xs → ∀ kept' (h : Host), kept ⊆ kept' →
      Grown before h.disk.tree (m :: (rest ++ kept')) →
      Grown before ((act m).runOn h).2.disk.tree (rest ++ kept')
        ∨ Grown before ((act m).runOn h).2.disk.tree (m :: (rest ++ kept'))) :
    Ends ((undoAll (xs.map fun m => (m.name, act m))).runOn h)
      (fun _ h' => ∃ left, Grown before h'.disk.tree (left ++ kept))
      (fun _ h' => before.Keeps h'.disk.tree) := by
  induction xs generalizing kept h with
  | nil => exact ⟨[], hg⟩
  | cons m rest ih =>
    have hstep : ∀ k r, k :: r <:+ rest → ∀ kept' (h : Host), kept ⊆ kept' →
        Grown before h.disk.tree (k :: (r ++ kept')) →
        Grown before ((act k).runOn h).2.disk.tree (r ++ kept')
          ∨ Grown before ((act k).runOn h).2.disk.tree (k :: (r ++ kept')) :=
      fun k r hk => step k r (hk.trans (List.suffix_cons ..))
    have hfirst := step m rest (List.suffix_refl _) kept h (List.Subset.refl _) hg
    rw [← host_undo m.name] at hfirst
    refine ends_bind (M := fun _ h₁ => Grown before h₁.disk.tree (rest ++ kept)
      ∨ Grown before h₁.disk.tree (m :: (rest ++ kept))) ?_ fun lines h₁ h₁grown => ?_
    · rcases hr : (undo m.name (act m)).runOn h with ⟨f | lines, h₁⟩
      · rw [hr] at hfirst
        exact hfirst.elim Grown.keeps Grown.keeps
      · rw [hr] at hfirst
        exact hfirst
    · refine ends_bind (M := fun _ h' => ∃ left, Grown before h'.disk.tree (left ++ kept)) ?_ ?_
      swap
      · exact fun more h' hleft => hleft
      rcases h₁grown with hgone | hleft
      · exact ih hgone hstep
      · -- what is left stays beside the rest
        have hg₁ : Grown before h₁.disk.tree (rest ++ m :: kept) := hleft.perm List.perm_middle.symm
        refine (ih hg₁ fun k r hk kept' h hkept =>
          hstep k r hk kept' h fun x hx => hkept (List.mem_cons_of_mem _ hx)).imp ?_ fun _ _ hk => hk
        rintro _ h' ⟨left, hg'⟩
        exact ⟨left ++ [m], by simpa using hg'⟩

/-- Two lists are taken back as one. -/
theorem ends_undoAll_append {undos more : List (Text × Action Host Unit)} {P : Host → Prop}
    (hr : Ends ((undoAll undos).runOn h)
      (fun _ h₁ => Ends ((undoAll more).runOn h₁) (fun _ => P) (fun _ => P)) (fun _ => P)) :
    Ends ((undoAll (undos ++ more)).runOn h) (fun _ => P) (fun _ => P) := by
  induction undos generalizing h with
  | nil => exact hr
  | cons u undos ih =>
    obtain ⟨label, act⟩ := u
    rw [List.cons_append]
    rcases hu : (undo label act).runOn h with ⟨f | lines, h₁⟩
    · have hfirst : (undoAll ((label, act) :: undos)).runOn h = (.error f, h₁) :=
        runOn_bind_error hu
      have hall : (undoAll ((label, act) :: (undos ++ more))).runOn h = (.error f, h₁) :=
        runOn_bind_error hu
      rw [hfirst] at hr
      rwa [hall]
    · have hall : (undoAll ((label, act) :: (undos ++ more))).runOn h
          = (undoAll (undos ++ more) >>= fun lines' => pure (lines ++ lines')).runOn h₁ :=
        runOn_bind_ok hu
      rw [hall]
      refine ends_bind (M := fun _ => P) (ih ?_) fun _ _ hP => hP
      rcases hrest : (undoAll undos).runOn h₁ with ⟨f | lines', h₂⟩
      · have hfirst : (undoAll ((label, act) :: undos)).runOn h = (.error f, h₂) :=
          (runOn_bind_ok hu).trans (runOn_bind_error hrest)
        rwa [hfirst] at hr
      · have hfirst : (undoAll ((label, act) :: undos)).runOn h = (.ok (lines ++ lines'), h₂) :=
          (runOn_bind_ok hu).trans (runOn_bind_ok hrest)
        rwa [hfirst] at hr

/-- However taking back an update ends, what was there before the update stays. -/
theorem keeps_rollback {c : Cycle} {extras dirs files : List Made}
    (hb : Books l before c extras dirs files) :
    before.Keeps ((rollback c.pending).runOn c.host).2.disk.tree := by
  have hst := hb.stock
  have hends : Ends ((rollback c.pending).runOn c.host) (fun _ h' => before.Keeps h'.disk.tree)
      (fun _ h' => before.Keeps h'.disk.tree) := by
    rw [hb.rollback_eq]
    apply ends_undoAll_append (P := fun h' => before.Keeps h'.disk.tree)
    refine (grown_undoAll (fun m => Store.delete m.path) hst.grown ?_).imp ?_ fun _ _ hk => hk
    · intro m rest hm kept' h hkept hg
      apply grown_delete hg
      exact hst.leadsTo_file (hm.subset (List.mem_cons_self ..)) hg
        fun x hx => List.mem_cons_of_mem _ (List.mem_append_right _ (hkept hx))
    · rintro _ h₁ ⟨left, hg₁⟩
      refine (grown_undoAll (fun m => Store.removeDirectory m.path) hg₁.directories_first ?_).imp
        (fun _ _ hleft => hleft.elim fun _ hg => hg.keeps) fun _ _ hk => hk
      intro m rest hm kept' h hkept hg
      apply grown_removeDirectory hg
      exact hst.leadsTo_directory hm hg fun x hx =>
        List.mem_cons_of_mem _ (List.mem_append_left _ hx)
  rcases hr : (rollback c.pending).runOn c.host with ⟨f | lines, h'⟩ <;> rwa [hr] at hends

/-! ## Sweeping -/

variable {entries : Entries} {d d' : Disk} {loc x : Location}

/-- A location below the output directory where the entries have no source. -/
def Layout.Exposes (l : Layout) (entries : Entries) (d : Disk) (x : Location) : Prop :=
  ∃ loc e names, d.place true l.outputRoot = .ok (.present loc e) ∧ names ≠ [] ∧ x = loc ++ names
    ∧ ¬ l.HasSource entries (l.outputRoot.descend names)

/-- What deleting listed files keeps: the output directory is where it was, the paths go on from it
to files or to where files were, and a location holds what it held. -/
structure Layout.Spares (l : Layout) (files : List Path) (loc x : Location) (s : Option Entry)
    (d : Disk) : Prop where
  legal : d.Legal
  root : ∃ e, d.place true l.outputRoot = .ok (.present loc e)
  directory : d.tree.isDirectory loc = true
  lists : ∀ p ∈ files, l.Lists d.tree loc p
  shape : d.tree.shape x = s

/-- Unlinking a listed file without a source spares every location where no such file is. -/
theorem Layout.Spares.unlink (hs : l.Sound) {files : List Path} {s : Option Entry}
    (hspares : l.Spares files loc x s d) (hx : ¬ Doomed l entries loc files x) {p : Path}
    (hp : p ∈ files) (hno : ¬ l.HasSource entries p) {now : Int} (hc : d.unlink p now = .ok d') :
    l.Spares files loc x s d' := by
  obtain ⟨e, hroot⟩ := hspares.root
  obtain ⟨names, hne, hn, rfl, hdir, hfile⟩ := hspares.lists p hp
  obtain ⟨hd', hthere, hshape⟩ := unlink_listed hs hspares.legal hroot hne hn hdir hfile hc
  have hpass := passable_of_file_removed hthere hshape
  have hloc := hpass.directory loc hspares.directory
  obtain ⟨time, hfind⟩ := Tree.isDirectory_iff.mp hloc
  have hroot' := Disk.place_keeps (hs.output.straight hs.root).isAbsolute hroot hpass hfind rfl
  refine ⟨hd', ⟨_, hroot'⟩, hloc, fun q hq => (hspares.lists q hq).removed hpass hshape, ?_⟩
  · rw [hshape, if_neg, hspares.shape]
    rintro rfl
    exact hx ⟨names, rfl, hp, hno⟩

/-- Deleting listed files takes away no other than those without a source, however it ends. -/
theorem shape_sweepFiles (hs : l.Sound) {files : List Path} {s : Option Entry}
    (hspares : l.Spares files loc x s h.disk) (hx : ¬ Doomed l entries loc files x) :
    ((sweepFiles l entries files).runOn h).2.disk.tree.shape x = s := by
  have hR : Stepwise (Across fun d d' => l.Spares files loc x s d → l.Spares files loc x s d') :=
    stepwise_across (fun _ hd => hd) fun hd hd' hsp => hd' (hd hsp)
  refine (respects_sweepFiles hR l entries files (fun p hp key hkey hno => ?_) h hspares).shape
  apply respects_bind hR (respects_meetFault hR _ _)
  intro _
  apply respects_call hR
  intro d now d' hc hsp
  refine hsp.unlink hs hx hp ?_ hc
  rintro ⟨key', hkey', hsource⟩
  exact hsource (Except.ok.inj (hkey.symm.trans hkey') ▸ hno)

/-- Going through the files below the output directory leaves all but the files among them that have
no source. -/
theorem shape_sweepFiles_listed (hs : l.Sound) (hd : h.disk.Legal) {files : List Path}
    (hfiles : ∀ p, p ∈ files ↔ h.disk.HoldsFile l.outputRoot p) {e : Entry}
    (hx : h.disk.tree.shape x = some e)
    (hexposed : ¬(e.isFile = true ∧ l.Exposes entries h.disk x)) :
    ((sweepFiles l entries files).runOn h).2.disk.tree.shape x = some e := by
  rcases hfs : files with _ | ⟨file, others⟩
  · exact hx
  rw [← hfs]
  -- the output directory is found, since a file below it is listed
  obtain ⟨loc, e₀, names₀, hroot, hloc, -⟩ :=
    ((hfiles file).mp (hfs ▸ List.mem_cons_self ..)).cases hd.tree
  have hspares : l.Spares files loc x (some e) h.disk :=
    ⟨hd, ⟨e₀, hroot⟩, hloc, fun p hp => lists_of_holdsFile hd hroot ((hfiles p).mp hp), hx⟩
  apply shape_sweepFiles hs hspares
  rintro ⟨names, rfl, hmem, hno⟩
  obtain ⟨loc', e', names', hroot', -, hne, -, heq, hfile⟩ := ((hfiles _).mp hmem).cases hd.tree
  obtain ⟨rfl, -⟩ : loc = loc' ∧ e₀ = e' := by simpa [hroot] using hroot'
  have hnames : names = names' := by simpa [Path.descend] using heq
  obtain ⟨content, hshape⟩ := Tree.isFile_iff_shape.mp hfile
  rw [← hnames, hx, Option.some.injEq] at hshape
  exact hexposed ⟨by rw [hshape]; rfl, loc, e₀, names, hroot, hnames ▸ hne, rfl, hno⟩

/-- Whatever is no directory and is not left by a sweep is a file that lies below the output directory
and has no source. -/
theorem shape_sweep (hs : l.Sound) (hd : h.disk.Legal) {e : Entry} (hx : h.disk.tree.shape x = some e)
    (he : e.isDirectory = false) :
    ((sweep l entries).runOn h).2.disk.tree.shape x = some e
      ∨ e.isFile = true ∧ l.Exposes entries h.disk x := by
  by_cases hexposed : e.isFile = true ∧ l.Exposes entries h.disk x
  · exact .inr hexposed
  refine .inl ((ends_same_iff (P := fun h' : Host => h'.disk.tree.shape x = some e)).mp ?_)
  have habs := (hs.output.straight hs.root).isAbsolute
  have hsame : Stepwise (Across fun d d' : Disk => d' = d) :=
    stepwise_across (fun _ => rfl) fun hd hd' => hd'.trans hd
  have hlist := respects_tolerate hsame (Store.respects_listFiles hsame l.outputRoot) h
  refine ends_bind (M := fun r h₁ => h₁.disk = h.disk ∧ ∀ files, r = .ok files →
    ∀ p, p ∈ files ↔ h.disk.HoldsFile l.outputRoot p) ?_ fun r h₁ ⟨hdisk, hfiles⟩ => ?_
  · rcases hr : (tolerate (Store.listFiles l.outputRoot)).runOn h with ⟨f | r, h₁⟩
    · rw [hr] at hlist
      rw [ends_error, show h₁.disk = h.disk from hlist]
      exact hx
    · rw [hr] at hlist
      refine ⟨hlist, ?_⟩
      rintro files rfl
      exact (Store.listFiles_ok hd habs (tolerate_ok hr)).2
  rw [← hdisk] at hx hd hexposed
  rcases r with err | files
  · refine ends_same_iff.mpr ?_
    have hkey := respects_bind hsame (respects_key hsame l l.outputRoot)
      (k := fun key => pure (⟨[], [], [⟨key, err.reason⟩]⟩ : SweepResult))
      (fun _ => respects_pure hsame _) h₁
    rw [show (Action.runOn _ h₁).2.disk = h₁.disk from hkey]
    exact hx
  replace hfiles := hfiles files rfl
  rw [← hdisk] at hfiles
  refine ends_bind (M := fun _ h₂ => h₂.disk.tree.shape x = some e)
    (ends_same_iff.mpr (shape_sweepFiles_listed hs hd hfiles hx hexposed)) fun _ h₂ hx₂ => ?_
  dsimp only
  split
  · refine ends_bind (M := fun _ h₃ => h₃.disk.tree.shape x = some e)
      (ends_same_iff.mpr ?_) fun _ _ hx₃ => ends_same_iff.mpr hx₃
    have hremove := Store.respects_removeEmptyDirectories stepwise_prunes l.outputRoot
      fun names => prunes_removeDirectory (p := l.outputRoot.descend names) habs
    exact (respects_pruneDirs stepwise_prunes l hremove h₂).2 x e hx₂ he
  · exact hx₂

end Provenance.Update
