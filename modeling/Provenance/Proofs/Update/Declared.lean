/-
What an edit is recorded as.

An edit records the artifacts of one source after the other. It is recorded as a build
would be that has these artifacts for outputs, each with its one source, and whatever it
records it has created or touched.

Where no unit is kept, an edit reads each source from the disk, and what it has made and
touched by then makes no difference: it takes no file away and gives none another
content. So its sources declare what they declared at its beginning. Nothing is asked of
the disk for that, not even that it be without links.
-/
import Provenance.Proofs.SourceSet.Transparency
import Provenance.Proofs.Update.Reading

set_option autoImplicit false

namespace Provenance

open Action Host

/-! ## Files that stay -/

theorem Path.isAbsolute_join {p q : Path} (h : p.isAbsolute = true) : (p.join q).isAbsolute = true := by
  unfold Path.join
  split
  · assumption
  · exact h

/-- What a path leads to it leads to as long as nothing is taken away. -/
theorem Disk.stat_keeps {d d' : Disk} {p : Path} {x : Location} {e : Entry} (hd : d.Legal)
    (hp : p.isAbsolute = true) (h : d.stat p = .ok (x, e)) (hk : d.tree.Keeps d'.tree) :
    ∃ e', d'.stat p = .ok (x, e') ∧ e'.timeless = e.timeless := by
  unfold Disk.stat at h ⊢
  split at h
  · rename_i l e₁ hpl
    obtain ⟨rfl, rfl⟩ := Prod.mk.inj (Except.ok.inj h)
    have hlink := place_not_link hd.tree hp hpl
    obtain ⟨e', hfind, htimeless⟩ := Option.map_eq_some_iff.mp
      (hk l _ (Tree.shape_of_find? (place_present hp hpl)))
    have hlink' : e'.isLink = false := by
      rw [← Entry.isLink_timeless, htimeless, Entry.isLink_timeless, hlink]
    rw [place_keeps hp hpl hk.passable hfind hlink']
    exact ⟨e', rfl, htimeless⟩
  · simp at h
  · simp at h

/-- What a file is read as does not depend on its time. -/
theorem SourceSet.freshUnit_congr {f : TrackedFile} {e e' : Entry} (h : e'.timeless = e.timeless) :
    SourceSet.freshUnit f e' = SourceSet.freshUnit f e := by
  have hcontent : ∀ e : Entry, SourceSet.contentOf e.timeless = SourceSet.contentOf e := fun e => by
    cases e <;> rfl
  unfold SourceSet.freshUnit
  rw [← hcontent e', h, hcontent e]

namespace Update

open Cycle

variable {l : Layout} {resolve : Resolver} {f g : TrackedFile} {fs : List TrackedFile} {c c' : Cycle}
  {keys : List Text} {p : Path} {o : Output} {done build : Build} {u : Unit} {d : Disk}

/-! ## What the steps of an edit note -/

/-- What is noted when the outputs of some sources have been brought in. -/
structure Declared (l : Layout) (done : Build) (c : Cycle) : Prop where
  entries : c.pending.entries = l.tableOf done
  refreshed : ∀ k, k ∈ c.pending.entries.keys
    ↔ k ∈ c.pending.created.map Prod.fst ∨ k ∈ c.pending.touched

theorem Declared.artifact (h : Declared l done c) (hnamed : NamedBy l f p o)
    (hr : (editArtifact l f p).runOn c = (.ok u, c')) : Declared l (done ++ [o]) c' := by
  obtain ⟨key, hkey, hentries, hrefreshed⟩ := editArtifact_notes hr
  obtain ⟨hlocate, hsources⟩ := hnamed
  have hkeyOf : l.keyOf? o = some key := Layout.keyOf?_eq_some_iff.mpr ⟨p, hlocate, hkey⟩
  refine ⟨?_, fun k => ?_⟩
  · rw [hentries, h.entries, Layout.tableOf_concat done hkeyOf, hsources]
  · rw [hrefreshed, ← h.refreshed, hentries, Entries.mem_keys_record, or_comm]

theorem Declared.artifacts {ps : List Path} (h : Declared l done c)
    (hnamed : List.Forall₂ (NamedBy l f) ps build)
    (hr : (ps.forM (editArtifact l f)).runOn c = (.ok u, c')) : Declared l (done ++ build) c' := by
  induction hnamed generalizing c done with
  | nil =>
    obtain rfl : c = c' := (Prod.mk.inj hr).2
    rwa [List.append_nil]
  | @cons p o ps build hfirst _ ih =>
    obtain ⟨_, c₁, hedit, hedits⟩ := bind_ok_iff.mp
      (show (editArtifact l f p >>= fun _ => ps.forM (editArtifact l f)).runOn c = (.ok u, c') from hr)
    rw [List.append_cons]
    exact ih (h.artifact hfirst hedit) hedits

/-- One source is brought in: the outputs that it has when the edit reads it. -/
theorem Declared.source (h : Declared l done c)
    (hr : (editSource l resolve f).runOn c = (.ok u, c')) :
    Declared l (done ++ outputsOf resolve f (readUnit f c)) c' := by
  obtain ⟨ps, c₁, hps, hedits⟩ := bind_ok_iff.mp hr
  obtain ⟨unit, c₂, hunit, hlocations⟩ := bind_ok_iff.mp hps
  rw [runOn_onSources] at hunit
  obtain ⟨hread, rfl⟩ := Prod.mk.inj hunit
  have hreads : readUnit f c = unit := by rw [readUnit, hread]
  rw [hreads]
  -- reading the source notes nothing
  have hread' : Declared l done { c with
      sources := ((SourceSet.unitOf c.host.disk f).runOn c.sources).2 } := ⟨h.entries, h.refreshed⟩
  cases unit with
  | none =>
    obtain ⟨hnil, rfl⟩ := Prod.mk.inj hlocations
    obtain rfl : [] = ps := Except.ok.inj hnil
    exact hread'.artifacts .nil hedits
  | some unit =>
    obtain ⟨hfound, rfl⟩ := ofExcept_ok_iff.mp hlocations
    exact hread'.artifacts (namedBy_locationsOf hfound) hedits

/-- All sources are brought in, one after the other. -/
theorem Declared.run (h : Declared l done c)
    (hr : (fs.forM (editSource l resolve)).runOn c = (.ok u, c')) :
    Declared l (done ++ readBuild l resolve fs c) c' := by
  induction fs generalizing c done with
  | nil =>
    obtain rfl : c = c' := (Prod.mk.inj hr).2
    rwa [readBuild, List.append_nil]
  | cons f fs ih =>
    obtain ⟨_, c₁, hedit, hedits⟩ := bind_ok_iff.mp
      (show (editSource l resolve f >>= fun _ => fs.forM (editSource l resolve)).runOn c
        = (.ok u, c') from hr)
    rw [readBuild, hedit, ← List.append_assoc]
    exact ih (h.source hedit) hedits

/-- An edit that gets through brings in the tracked files that it was told of, in the order of their
keys. -/
theorem editSteps_ok {affected : List Text} (hr : (editSteps l resolve affected).runOn c = (.ok u, c')) :
    ∃ keys, c.sources.keysOn c.host.disk = .ok keys
      ∧ ((((sorted keys).map c.sources.trackedFile).filter fun f => affected.contains f.path).forM
          (editSource l resolve)).runOn { c with sources := c.sources.knowing keys } = (.ok u, c') := by
  obtain ⟨files, cycle, hlisted, hedits⟩ := bind_ok_iff.mp hr
  rw [runOn_onSources] at hlisted
  rcases hkeys : c.sources.keysOn c.host.disk with cause | keys
  · rw [SourceSet.listed_of_error hkeys] at hlisted
    exact nomatch (Prod.mk.inj hlisted).1
  rw [SourceSet.listed_eq hkeys] at hlisted
  obtain ⟨hfiles, rfl⟩ := Prod.mk.inj hlisted
  obtain rfl := Except.ok.inj hfiles
  exact ⟨keys, rfl, hedits⟩

/-! ## Reading afresh -/

/-- Some sources that have units on a disk from which nothing has been taken since, and of which no unit
is kept. -/
structure Unread (keys : List Text) (d : Disk) (fs : List TrackedFile) (c : Cycle) : Prop where
  before : d.Legal
  legal : c.host.disk.Legal
  keeps : d.tree.Keeps c.host.disk.tree
  known : c.sources.files = some keys
  tracked : ∀ f ∈ fs, f.path ∈ keys
  unkept : ∀ f ∈ fs, c.sources.kept? f.path = none
  isAbsolute : ∀ f ∈ fs, f.location.isAbsolute = true
  there : ∀ f ∈ fs, (SourceSet.unitOn d f).isSome

theorem Unread.mono (h : Unread keys d fs c) {gs : List TrackedFile} (hgs : gs ⊆ fs) :
    Unread keys d gs c :=
  ⟨h.before, h.legal, h.keeps, h.known, fun f hf => h.tracked f (hgs hf),
    fun f hf => h.unkept f (hgs hf), fun f hf => h.isAbsolute f (hgs hf),
    fun f hf => h.there f (hgs hf)⟩

/-- The edit reads a source as it was. -/
theorem Unread.readUnit (h : Unread keys d fs c) (hf : f ∈ fs) :
    readUnit f c = SourceSet.unitOn d f := by
  have hthere := h.there f hf
  have hnone : ∀ e, c.sources.fitting? f e = none := fun e => by
    rw [SourceSet.fitting?, h.unkept f hf]
    rfl
  rw [readUnit_known h.known, if_pos (List.contains_iff_mem.mpr (h.tracked f hf))]
  unfold SourceSet.unitOn at hthere ⊢
  rcases hstat : d.stat f.location with er | ⟨x, e⟩
  · simp [hstat] at hthere
  · obtain ⟨e', hstat', htimeless⟩ := Disk.stat_keeps h.before (h.isAbsolute f hf) hstat h.keeps
    rw [hstat']
    show c.sources.unitThere? f e' = (SourceSet.freshUnit f e).toOption
    rw [SourceSet.unitThere?, hnone, SourceSet.freshUnit_congr htimeless]

/-- The sources that are left are still unread when another one has been brought in. -/
theorem Unread.step (hl : l.Sound) (h : Unread keys d fs c) (hg : ∀ f ∈ fs, f.path ≠ g.path) :
    Unread keys d fs ((editSource l resolve g).runOn c).2 := by
  obtain ⟨hlegal, hkeeps⟩ := hl.keptGrows.steps.editSource resolve g
    (fun cls p hcls => classLocation_below hcls) c h.legal
  have hsources := sources_editSource l resolve g c
  obtain ⟨hknown, hkept⟩ := SourceSet.unitOf_known (d := c.host.disk) (g := g) h.known
  refine ⟨h.before, hlegal, h.keeps.trans hkeeps, by rw [hsources, hknown], h.tracked, fun f hf => ?_,
    h.isAbsolute, h.there⟩
  rw [hsources, hkept f.path (hg f hf)]
  exact h.unkept f hf

/-- Sources that are unread have the outputs that they had, whenever the edit comes to them. -/
theorem Unread.readBuild (hl : l.Sound) (h : Unread keys d fs c)
    (hnodup : (fs.map TrackedFile.path).Nodup) :
    readBuild l resolve fs c = fs.flatMap fun f => outputsOf resolve f (SourceSet.unitOn d f) := by
  induction fs generalizing c with
  | nil => rfl
  | cons g fs ih =>
    obtain ⟨hg, hnodup⟩ := List.nodup_cons.mp hnodup
    have hrest := h.mono (List.subset_cons_self g fs)
    have hother : ∀ f ∈ fs, f.path ≠ g.path := fun f hf heq => hg (heq ▸ List.mem_map_of_mem hf)
    rw [Update.readBuild, List.flatMap_cons, h.readUnit (List.mem_cons_self ..),
      ih (hrest.step hl hother) hnodup]

/-! ## Builds in parts -/

theorem Layout.keysIn_flatMap (l : Layout) {α : Type} (xs : List α) (part : α → Build) :
    l.keysIn (xs.flatMap part) = xs.flatMap fun x => l.keysIn (part x) := by
  induction xs with
  | nil => rfl
  | cons x xs ih => rw [List.flatMap_cons, List.flatMap_cons, ← ih, keysIn, List.filterMap_append]; rfl

theorem Layout.sourcesIn_flatMap (l : Layout) {α : Type} (xs : List α) (part : α → Build) (k : Text) :
    l.sourcesIn (xs.flatMap part) k = xs.flatMap fun x => l.sourcesIn (part x) k := by
  induction xs with
  | nil => rfl
  | cons x xs ih =>
    rw [List.flatMap_cons, List.flatMap_cons, ← ih, sourcesIn, List.filter_append, List.flatMap_append]
    rfl

end Update

end Provenance
