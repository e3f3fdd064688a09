/-
What is left when an update is taken back.

Files are deleted first and then directories are removed, the latest first. So when
it is the turn of something, all directories that its path goes through are still
there, and the path leads to it. Where calls fail only as calls do, each of them
either takes its thing away or gives one line that names it, and nothing else
changes: what is left in the end are the things with a line, and the extras that no
note told of.
-/
import Provenance.Proofs.Update.Books

set_option autoImplicit false

namespace Provenance.Update

open Action Host Cycle Disk

variable {l : Layout} {before : Tree} {h h' : Host} {m : Made} {rest kept xs : List Made}

/-! ## One thing -/

/-- A line is about something made: it begins with its name. -/
def Tells (line : Text) (m : Made) : Prop := ∃ reason, line = m.name ++ ": ".toList ++ reason

/-- Something made is gone, or it is left and has a line; the rest is as it was. -/
def Undone (before : Tree) (m : Made) (rest : List Made) (r : Except Failure (List Text) × Host) :
    Prop :=
  ∃ lines h', r = (.ok lines, h') ∧ h'.OnlyIo
    ∧ ((lines = [] ∧ Grown before h'.disk.tree rest)
      ∨ ∃ line, lines = [line] ∧ Tells line m ∧ Grown before h'.disk.tree (m :: rest))

theorem runOn_undo_ok {label : Text} {act : Action Host Unit} {u : Unit}
    (hr : act.runOn h = (.ok u, h')) : (undo label act).runOn h = (.ok [], h') := by
  have hattempt := runOn_attempt act h
  rw [hr] at hattempt
  exact runOn_bind_ok hattempt

theorem runOn_undo_io {label : Text} {act : Action Host Unit} {e : IoError} {notes : List Text}
    (hr : act.runOn h = (.error ⟨.io e, notes⟩, h')) :
    (undo label act).runOn h = (.ok [label ++ ": ".toList ++ e.reason], h') := by
  have hattempt := runOn_attempt act h
  rw [hr] at hattempt
  exact runOn_bind_ok hattempt

/-- A failed call leaves everything as it was, and a line. -/
theorem undone_of_io {act : Action Host Unit} {e : IoError} {notes : List Text}
    (hr : act.runOn h = (.error ⟨.io e, notes⟩, h')) (hio : h'.OnlyIo)
    (hg : Grown before h'.disk.tree (m :: rest)) :
    Undone before m rest ((undo m.name act).runOn h) :=
  ⟨_, h', runOn_undo_io hr, hio, .inr ⟨_, rfl, ⟨_, rfl⟩, hg⟩⟩

/-- Nothing is made in the place of the root. -/
theorem Grown.location_eq (hg : Grown before h.disk.tree (m :: rest)) :
    ∃ dir n, m.location = dir ++ [n] := by
  rcases List.eq_nil_or_concat m.location with hnil | ⟨dir, n, heq⟩
  · have hfresh := hg.fresh m (List.mem_cons_self ..)
    rw [hnil, Tree.find?_nil] at hfresh
    simp at hfresh
  · exact ⟨dir, n, by simpa using heq⟩

/-- Taking away something with nothing in it takes it away and nothing else. -/
theorem Grown.removed (hg : Grown before h.disk.tree (m :: rest))
    (hempty : h.disk.tree.isEmptyAt m.location = true) (now : Int) :
    Grown before (h.disk.tree.remove m.location now) rest := by
  obtain ⟨dir, n, heq⟩ := hg.location_eq
  rw [heq] at hempty ⊢
  apply hg.remove (hg.legal.remove (by simp) now)
  intro l
  rw [heq]
  exact Tree.shape_remove_of_empty hempty now l

/-- The path of something made is found at its location. -/
theorem Grown.find?_of_place (hg : Grown before h.disk.tree (m :: rest))
    (hleads : LeadsTo h.disk.tree m.path m.location) {l : Location} {e : Entry}
    (hpl : h.disk.place false m.path = .ok (.present l e)) :
    m.location = l ∧ h.disk.tree.find? m.location = some e := by
  obtain ⟨e', hfind, -⟩ := Option.map_eq_some_iff.mp (hg.shape m (List.mem_cons_self ..))
  have hthere := hleads h.disk rfl e' hfind
  rw [hpl] at hthere
  obtain ⟨rfl, rfl⟩ := Place.present.inj (Except.ok.inj hthere)
  exact ⟨rfl, hfind⟩

/-- A call that takes something away, and nothing with something in it, is undone by what it says:
where it fails, its line stays. -/
theorem undone_method (method : StoreMethod) (change : Disk → Int → Except Errno Disk)
    (hg : Grown before h.disk.tree (m :: rest)) (hio : h.OnlyIo)
    (hchange : ∀ d, change h.disk h.clock.now = .ok d →
      h.disk.tree.isEmptyAt m.location = true
        ∧ d = h.disk.withTree (h.disk.tree.remove m.location h.clock.now)) :
    Undone before m rest
      ((undo m.name (meetFault method m.path >>= fun _ => call m.path change)).runOn h) := by
  have hio' := hio.struck method m.path
  rcases method_cases method m.path change h with ⟨fault, hf, hrun⟩ | ⟨e, -, hrun⟩ | ⟨d, hc, hrun⟩
  · obtain ⟨e, he⟩ := hio.cause hf
    rw [he] at hrun
    exact undone_of_io hrun hio' hg
  · exact undone_of_io hrun hio' hg
  · obtain ⟨hempty, rfl⟩ := hchange d hc
    exact ⟨[], _, runOn_undo_ok hrun, hio', .inl ⟨rfl, hg.removed hempty h.clock.now⟩⟩

theorem undone_delete (hg : Grown before h.disk.tree (m :: rest)) (hio : h.OnlyIo)
    (hleads : LeadsTo h.disk.tree m.path m.location) :
    Undone before m rest ((undo m.name (Store.delete m.path)).runOn h) := by
  apply undone_method _ _ hg hio
  intro d hc
  obtain ⟨l, e, hpl, hdir, rfl⟩ := unlink_ok hc
  obtain ⟨rfl, hfind⟩ := hg.find?_of_place hleads hpl
  exact ⟨hg.legal.isEmptyAt (by simp [Tree.isDirectory, hfind, hdir]), rfl⟩

theorem undone_removeDirectory (hg : Grown before h.disk.tree (m :: rest)) (hio : h.OnlyIo)
    (hleads : LeadsTo h.disk.tree m.path m.location) :
    Undone before m rest ((undo m.name (Store.removeDirectory m.path)).runOn h) := by
  apply undone_method _ _ hg hio
  intro d hc
  obtain ⟨l, time, hpl, -, hempty, rfl⟩ := removeDirectory_ok hc
  obtain ⟨rfl, -⟩ := hg.find?_of_place hleads hpl
  exact ⟨hempty, rfl⟩

/-! ## All things -/

/-- Things are taken back one after the other: those that are left have a line each. -/
theorem undoAll_grown (act : Made → Action Host Unit)
    (hg : Grown before h.disk.tree (xs ++ kept)) (hio : h.OnlyIo)
    (step : ∀ m rest, m :: rest <:+ xs → ∀ kept' (h : Host), kept ⊆ kept' →
      Grown before h.disk.tree (m :: (rest ++ kept')) → h.OnlyIo →
      Undone before m (rest ++ kept') ((undo m.name (act m)).runOn h)) :
    ∃ lines left h', (undoAll (xs.map fun m => (m.name, act m))).runOn h = (.ok lines, h')
      ∧ h'.OnlyIo ∧ Grown before h'.disk.tree (left ++ kept) ∧ List.Forall₂ Tells lines left
      ∧ left ⊆ xs := by
  induction xs generalizing kept h with
  | nil => exact ⟨[], [], h, rfl, hio, hg, .nil, by simp⟩
  | cons m rest ih =>
    obtain ⟨lines, h₁, hrun, hio₁, hout⟩ :=
      step m rest (List.suffix_refl _) kept h (List.Subset.refl _) hg hio
    have hstep : ∀ k r, k :: r <:+ rest → ∀ kept' (h : Host), kept ⊆ kept' →
        Grown before h.disk.tree (k :: (r ++ kept')) → h.OnlyIo →
        Undone before k (r ++ kept') ((undo k.name (act k)).runOn h) :=
      fun k r hk => step k r (hk.trans (List.suffix_cons ..))
    rcases hout with ⟨rfl, hg₁⟩ | ⟨line, rfl, htells, hg₁⟩
    · obtain ⟨lines', left, h', hrest, hio', hg', hlines, hsub⟩ := ih hg₁ hio₁ hstep
      refine ⟨lines', left, h', ?_, hio', hg', hlines, List.Subset.trans hsub (List.subset_cons_self ..)⟩
      exact (runOn_bind_ok hrun).trans (runOn_bind_ok hrest)
    · -- what is left stays beside the rest
      have hg₂ : Grown before h₁.disk.tree (rest ++ m :: kept) := hg₁.perm List.perm_middle.symm
      obtain ⟨lines', left, h', hrest, hio', hg', hlines, hsub⟩ :=
        ih hg₂ hio₁ fun k r hk kept' h hkept =>
          hstep k r hk kept' h fun x hx => hkept (List.mem_cons_of_mem _ hx)
      refine ⟨line :: lines', m :: left, h', ?_, hio', hg'.perm List.perm_middle,
        .cons htells hlines, ?_⟩
      · exact (runOn_bind_ok hrun).trans (runOn_bind_ok hrest)
      · exact List.cons_subset_cons m hsub

theorem undoAll_append {undos more : List (Text × Action Host Unit)} {lines lines' : List Text}
    {h₁ : Host} (hr : (undoAll undos).runOn h = (.ok lines, h₁))
    (hr' : (undoAll more).runOn h₁ = (.ok lines', h')) :
    (undoAll (undos ++ more)).runOn h = (.ok (lines ++ lines'), h') := by
  induction undos generalizing h lines with
  | nil =>
    obtain ⟨rfl, rfl⟩ : [] = lines ∧ h = h₁ := by simpa [undoAll] using hr
    exact hr'
  | cons u undos ih =>
    obtain ⟨label, act⟩ := u
    obtain ⟨first, h₂, hu, hrest⟩ := bind_ok_iff.mp hr
    obtain ⟨more', h₃, hm, hpure⟩ := bind_ok_iff.mp hrest
    obtain ⟨rfl, rfl⟩ : first ++ more' = lines ∧ h₃ = h₁ := by simpa using hpure
    rw [List.append_assoc]
    exact (runOn_bind_ok hu).trans (runOn_bind_ok (ih hm))

theorem Chained.of_suffix {ms ms' : List Made} (h : Chained before ms) (hs : ms' <:+ ms) :
    Chained before ms' := by
  obtain ⟨front, rfl⟩ := hs
  induction front with
  | nil => exact h
  | cons m front ih => exact ih h.2

/-- While files are taken back, the directories that their paths go through are there. -/
theorem Stock.leadsTo_file {t after : Tree} {made dirs files : List Made}
    (hst : Stock before t dirs files) (hm : m ∈ files) (hg : Grown before after made)
    (hdirs : dirs ⊆ made) : LeadsTo after m.path m.location :=
  hst.lasting m hm after hg.legal hg.keeps fun _ hx =>
    hg.isDirectory (hdirs hx) (hst.directories _ hx).1

/-- While directories are taken back, the latest first, those that their paths go through are there. -/
theorem Stock.leadsTo_directory {t after : Tree} {made extras dirs files : List Made}
    (hst : Stock before t (extras ++ dirs) files) (hm : m :: rest <:+ dirs)
    (hg : Grown before after made) (hrest : rest ⊆ made) : LeadsTo after m.path m.location := by
  have hchain := hst.chained.of_suffix (hm.trans (List.suffix_append ..))
  exact hchain.1 after hg.legal hg.keeps fun x hx =>
    hg.isDirectory (hrest hx) (hst.directories x (List.mem_append_right _
      (hm.subset (List.mem_cons_of_mem _ hx)))).1

/-- After the files it is the turn of the directories. -/
theorem Grown.directories_first {after : Tree} {left extras dirs : List Made}
    (hg : Grown before after (left ++ (extras ++ dirs))) :
    Grown before after (dirs ++ (left ++ extras)) := by
  apply hg.perm
  rw [← List.append_assoc, ← List.append_assoc]
  exact List.perm_append_comm.trans (.of_eq (List.append_assoc ..).symm)

/-- What is noted is taken back thing by thing, each under its name. -/
theorem Books.rollback_eq {c : Cycle} {extras dirs files : List Made}
    (hb : Books l before c extras dirs files) :
    rollback c.pending = undoAll ((files.map fun m => (m.name, Store.delete m.path))
      ++ dirs.map fun m => (m.name, Store.removeDirectory m.path)) := by
  have hnames : (dirs.map Made.path).map (fun dir => (dir.text, Store.removeDirectory dir))
      = dirs.map fun m => (m.name, Store.removeDirectory m.path) := by
    rw [List.map_map]
    apply List.map_congr_left
    intro m hm
    rw [(hb.stock.directories m (List.mem_append_right _ hm)).2]
    rfl
  rw [rollback, hb.created, hb.createdDirs, hnames, List.map_map]
  rfl

/-- Of what an update has noted, what is left when it is taken back has a line each. -/
theorem rollback_grown {c : Cycle} {extras dirs files : List Made}
    (hb : Books l before c extras dirs files) (hio : c.host.OnlyIo) :
    ∃ lines left h', (rollback c.pending).runOn c.host = (.ok lines, h')
      ∧ Grown before h'.disk.tree (left ++ extras) ∧ List.Forall₂ Tells lines left
      ∧ left ⊆ files ++ dirs := by
  have hst := hb.stock
  obtain ⟨lines, leftFiles, h₁, hrun, hio₁, hg₁, hlines, hsub⟩ :=
    undoAll_grown (fun m => Store.delete m.path) hst.grown hio
      fun m rest hm kept' h hkept hg hio =>
        undone_delete hg hio (hst.leadsTo_file (hm.subset (List.mem_cons_self ..)) hg
          fun x hx => List.mem_cons_of_mem _ (List.mem_append_right _ (hkept hx)))
  obtain ⟨lines', leftDirs, h₂, hrun', -, hg₂, hlines', hsub'⟩ :=
    undoAll_grown (fun m => Store.removeDirectory m.path) hg₁.directories_first hio₁
      fun m rest hm kept' h hkept hg hio =>
        undone_removeDirectory hg hio (hst.leadsTo_directory hm hg
          fun x hx => List.mem_cons_of_mem _ (List.mem_append_left _ hx))
  refine ⟨lines ++ lines', leftFiles ++ leftDirs, h₂, ?_, ?_, ?_, ?_⟩
  · rw [hb.rollback_eq]
    exact undoAll_append hrun hrun'
  · apply hg₂.perm
    rw [← List.append_assoc]
    exact List.Perm.append_right _ List.perm_append_comm
  · exact List.rel_append hlines hlines'
  · exact List.append_subset.mpr ⟨List.Subset.trans hsub (List.subset_append_left ..),
      List.Subset.trans hsub' (List.subset_append_right ..)⟩

end Provenance.Update
