/-
What an edit reads.

An edit reads each source when it comes to it, and by then it has made and touched the
artifacts of the sources before. On a disk without links that makes no difference to a
source that is not where a class file is made, nor on the way there, whether the source
is there or not: nothing is made and nothing is touched elsewhere. So what the edit reads
is what it would have read of every source at its beginning.

Hardly any source is in the way. A name with a dot can only be that of a class file, or
one on the way to the output directory.
-/
import Provenance.Proofs.ClassFile
import Provenance.Proofs.Update.Rebuild
import Provenance.Proofs.Update.Twin

set_option autoImplicit false

namespace Provenance.Update

open Action Cycle Host

variable {l : Layout} {resolve : Resolver} {f g : TrackedFile} {fs : List TrackedFile} {c c' : Cycle}
  {d d' : Disk} {keys : List Text} {x : Location} {e : Entry} {p q : Path} {cls : ClassName}

/-! ## Elsewhere -/

/-- A location that is not where a class file is made, nor on the way there. -/
def Layout.Elsewhere (l : Layout) (x : Location) : Prop :=
  ∀ cls p, classLocation l cls = .ok p → ¬ x <+: p.names

/-- A name that has a dot, but not the ending of class files, is elsewhere if it is not on the way to
the output directory. -/
theorem Layout.elsewhere_of_name {n : Text} (hout : ¬ x ++ [n] <+: l.outputRoot.names) (hdot : '.' ∈ n)
    (hclass : ¬ Artifact.classSuffix <:+ n) : l.Elsewhere (x ++ [n]) := by
  intro cls p hcls hway
  obtain ⟨names, rfl, hnames⟩ := Artifact.classFile_names (except_mapError_ok_iff.mp hcls)
  -- what is on the way to a class file and not to the output directory ends with one of the names
  rcases List.prefix_or_prefix_of_prefix hway (List.prefix_append _ names) with h | ⟨ms, hms⟩
  · exact hout h
  rw [← hms] at hway
  have hpart : ms <+: names := (List.prefix_append_right_inj _).mp hway
  have hmem : n ∈ ms := by
    rcases List.eq_nil_or_concat ms with rfl | ⟨ms', m, rfl⟩
    · rw [List.append_nil] at hms
      exact absurd (hms ▸ List.prefix_refl _) hout
    · rw [List.concat_eq_append, ← List.append_assoc] at hms
      simp [(List.append_inj' hms rfl).2]
  exact hclass (hnames n (hpart.subset hmem) hdot)

/-- A legal disk without links stays one, and elsewhere everything on it stays as it is. -/
def KeepsElsewhere (l : Layout) (d d' : Disk) : Prop :=
  d.Legal → d.tree.LinkFree → d'.Legal ∧ d'.tree.LinkFree
    ∧ ∀ x, l.Elsewhere x → d'.tree.find? x = d.tree.find? x

theorem stepwise_keepsElsewhere (l : Layout) : Stepwise (Across (KeepsElsewhere l)) := by
  refine stepwise_across (fun d hd hfree => ⟨hd, hfree, fun _ _ => rfl⟩) ?_
  intro d d' d'' h h' hd hfree
  obtain ⟨hd', hfree', hsame⟩ := h hd hfree
  obtain ⟨hd'', hfree'', hsame'⟩ := h' hd' hfree'
  exact ⟨hd'', hfree'', fun x hx => (hsame' x hx).trans (hsame x hx)⟩

/-- What is made on the way to a class file changes nothing elsewhere. -/
theorem keepsElsewhere_add {dir : Location} {n : Text} (hcls : classLocation l cls = .ok p)
    (hq : q.Straight) (hway : q.names <+: p.names) (hpl : d.place false q = .ok (.absent dir n))
    (he : e.isLink = false) (now : Int) :
    KeepsElsewhere l d (d.withTree (d.tree.add (dir ++ [n]) e now)) := by
  intro hd hfree
  have hwide := Disk.widened_add hd hfree hq hpl he now
  refine ⟨hwide.legal, hwide.free, fun x hx => ?_⟩
  obtain ⟨e', heq, -⟩ | ⟨dir', n', heq, hnames⟩ := Disk.place_plain hfree hq hpl
  · simp at heq
  obtain ⟨rfl, rfl⟩ := Disk.Place.absent.inj heq
  rw [← hnames] at hway
  have hdir := Tree.isSome_find?_of_isDirectory (Disk.place_absent hd.tree hq hpl).1
  -- its directory, whose time changes, is on the way as well
  have hnew : x ≠ dir ++ [n] := by
    rintro rfl
    exact hx cls p hcls hway
  have hparent : x ≠ dir := by
    rintro rfl
    exact hx cls p hcls ((List.prefix_append _ _).trans hway)
  rw [Disk.tree_withTree, Tree.find?_add hdir, if_neg hnew, if_neg hparent]

/-- Bringing in class files changes nothing elsewhere. -/
theorem keptSteps_elsewhere (hl : l.Sound) : KeptSteps (OnHosts (Across (KeepsElsewhere l)))
    fun p => ∃ cls, classLocation l cls = .ok p := by
  have hR := stepwise_keepsElsewhere l
  have hstraight : ∀ {cls p}, classLocation l cls = .ok p → p.Straight := fun hcls =>
    hl.straight (classLocation_below hcls)
  refine keptSteps_onHosts hR ?_ ?_ ?_
  · rintro p ⟨cls, hcls⟩
    refine Store.respects_createDirectories hR (hstraight hcls).parent fun q hq hway d now d' hc => ?_
    obtain ⟨dir, n, hpl, rfl⟩ := Disk.makeDirectory_ok hc
    exact keepsElsewhere_add hcls hq (hway.trans (List.dropLast_prefix _)) hpl rfl now
  · rintro p ⟨cls, hcls⟩
    refine Store.respects_createIfAbsent hR fun d now d' hc => ?_
    obtain ⟨dir, n, hpl, rfl⟩ := Disk.createFile_ok hc
    exact keepsElsewhere_add hcls (hstraight hcls) (List.prefix_refl _) hpl rfl now
  · rintro p ⟨cls, hcls⟩
    refine Store.respects_touch hR fun d time d' hc hd hfree => ?_
    obtain ⟨x, e, hpl, rfl⟩ := Disk.setTime_ok hc
    obtain ⟨e', heq, -⟩ | ⟨dir, n, heq, -⟩ := Disk.place_plain hfree (hstraight hcls) hpl
    swap
    · simp at heq
    obtain ⟨rfl, -⟩ := Disk.Place.present.inj heq
    have hshape := Tree.shape_stamp d.tree p.names time
    refine ⟨hd.withTree (hd.tree.stamp _ _), hfree.of_shape fun y e hy _ => ?_, fun y hy => ?_⟩
    · rw [← hshape]
      exact hy
    · have hother : y ≠ p.names := by
        rintro rfl
        exact hy cls p hcls (List.prefix_refl _)
      rw [Disk.tree_withTree, Tree.find?_stamp, if_neg hother]

theorem keepsElsewhere_editSource (hl : l.Sound) (resolve : Resolver) (f : TrackedFile) :
    Respects (OnHosts (Across (KeepsElsewhere l))) (editSource l resolve f) :=
  (keptSteps_elsewhere hl).editSource resolve f fun cls _ hcls => ⟨cls, hcls⟩

/-- A source that is not in the way of class files. -/
structure Undisturbed (l : Layout) (f : TrackedFile) : Prop where
  straight : f.location.Straight
  elsewhere : l.Elsewhere f.location.names

/-- What is there for such a source stays there, and as it is. -/
theorem Undisturbed.stat (h : Undisturbed l f) (hd : d.Legal) (hfree : d.tree.LinkFree)
    (hk : KeepsElsewhere l d d') : (d'.stat f.location).toOption = (d.stat f.location).toOption := by
  obtain ⟨hd', hfree', hsame⟩ := hk hd hfree
  exact Disk.toOption_stat_eq hd hfree hd' hfree' h.straight (hsame _ h.elsewhere)

/-! ## Sources -/

theorem sources_editArtifact (f : TrackedFile) (p : Path) :
    Respects (fun c c' : Cycle => c'.sources = c.sources) (editArtifact l f p) := by
  have hR : Stepwise fun c c' : Cycle => c'.sources = c.sources := stepwise_same Cycle.sources
  apply respects_bind hR (respects_ofExcept hR _ _)
  intro a
  apply respects_bind hR fun c => (samePlan_materialize a c).1
  intro created
  cases created
  · exact respects_bind hR (fun c => (samePlan_touch a c).1) fun _ _ => rfl
  · exact fun _ => rfl

/-- An edit does nothing to the sources but read them. -/
theorem sources_editSource (l : Layout) (resolve : Resolver) (f : TrackedFile) (c : Cycle) :
    ((editSource l resolve f).runOn c).2.sources
      = ((SourceSet.unitOf c.host.disk f).runOn c.sources).2 := by
  have hR : Stepwise fun c c' : Cycle => c'.sources = c.sources := stepwise_same Cycle.sources
  unfold editSource artifactLocations
  rw [runOn_bind, runOn_bind, runOn_onSources]
  rcases (SourceSet.unitOf c.host.disk f).runOn c.sources with ⟨er | unit, s'⟩
  · rfl
  cases unit with
  | none => rfl
  | some unit =>
    dsimp only
    rcases locationsOf l resolve unit.topLevel with er | ps
    · rfl
    · exact respects_forM hR ps (fun p _ => sources_editArtifact f p) _

/-- What a cycle that knows its sources reads of one of them. -/
theorem readUnit_known (hknown : c.sources.files = some keys) :
    readUnit f c
      = if keys.contains f.path then
          (c.host.disk.stat f.location).toOption.bind fun xe => c.sources.unitThere? f xe.2
        else none := by
  rw [readUnit]
  rcases hf : keys.contains f.path with _ | _
  · rw [SourceSet.unitOf_untracked hknown hf]
    rfl
  rcases hstat : c.host.disk.stat f.location with er | ⟨x, e⟩
  · rw [SourceSet.unitOf_missing hknown hf hstat]
    split
    · rename_i hnone
      split at hnone
      · exact (Except.ok.inj hnone).symm
      · simp at hnone
    · rfl
  · rw [SourceSet.unitOf_there hknown hf hstat]
    show _ = c.sources.unitThere? f e
    rw [SourceSet.unitThere?]
    rcases c.sources.fitting? f e with _ | k
    · rcases SourceSet.freshUnit f e with er | unit <;> rfl
    · rfl

/-! ## Reading one source after the other -/

/-- A later cycle that still reads some sources as an earlier one, on a disk without links. -/
structure ReadsAs (l : Layout) (keys : List Text) (fs : List TrackedFile) (c₀ c : Cycle) : Prop where
  legal : c.host.disk.Legal
  free : c.host.disk.tree.LinkFree
  known : c.sources.files = some keys
  stat : ∀ f ∈ fs,
    (c.host.disk.stat f.location).toOption = (c₀.host.disk.stat f.location).toOption
  units : ∀ f ∈ fs, ∀ x e, c₀.host.disk.stat f.location = .ok (x, e) →
    c.sources.unitThere? f e = c₀.sources.unitThere? f e

variable {c₀ : Cycle}

/-- Once one of the sources has been brought in, all of them are still read as before. -/
theorem ReadsAs.step (hl : l.Sound) (h : ReadsAs l keys fs c₀ c) (hfs : ∀ f ∈ fs, Undisturbed l f)
    (hkeys : ∀ f ∈ fs, f.path = g.path → f = g) :
    ReadsAs l keys fs c₀ ((editSource l resolve g).runOn c).2 := by
  have hkeeps : KeepsElsewhere l c.host.disk ((editSource l resolve g).runOn c).2.host.disk :=
    keepsElsewhere_editSource hl resolve g c
  obtain ⟨hlegal, hfree, -⟩ := hkeeps h.legal h.free
  have hsources := sources_editSource l resolve g c
  refine ⟨hlegal, hfree, ?_, fun f hf => ?_, fun f hf x e hstat₀ => ?_⟩
  · rw [hsources]
    exact (SourceSet.unitOf_known h.known).1
  · exact ((hfs f hf).stat h.legal h.free hkeeps).trans (h.stat f hf)
  · have hstat : c.host.disk.stat f.location = .ok (x, e) := by
      rw [← except_toOption_eq_some_iff, h.stat f hf, hstat₀]
      rfl
    rw [hsources, SourceSet.unitThere?_unitOf h.known hstat (hkeys f hf)]
    exact h.units f hf x e hstat₀

/-- What the edit reads of a source when it comes to it is what it would have read at first. -/
theorem ReadsAs.readUnit (h : ReadsAs l keys fs c₀ c) (hknown₀ : c₀.sources.files = some keys)
    (hf : f ∈ fs) : readUnit f c = Update.readUnit f c₀ := by
  rw [readUnit_known h.known, readUnit_known hknown₀, h.stat f hf]
  rcases hstat₀ : c₀.host.disk.stat f.location with er | ⟨x, e⟩
  · rfl
  · show (if _ then c.sources.unitThere? f e else none) = if _ then c₀.sources.unitThere? f e else none
    rw [h.units f hf x e hstat₀]

/-- Without links, sources that are not in the way are as well read at the beginning. -/
theorem readBuild_eq (hl : l.Sound) (h : ReadsAs l keys fs c₀ c) (hknown₀ : c₀.sources.files = some keys)
    (hfs : ∀ f ∈ fs, Undisturbed l f) (hkeys : ∀ g ∈ fs, ∀ f ∈ fs, f.path = g.path → f = g)
    {todo : List TrackedFile} (htodo : todo ⊆ fs) :
    readBuild l resolve todo c = todo.flatMap fun f => outputsOf resolve f (readUnit f c₀) := by
  induction todo generalizing c with
  | nil => rfl
  | cons g todo ih =>
    obtain ⟨hg, htodo'⟩ := List.cons_subset.mp htodo
    rw [readBuild, List.flatMap_cons, h.readUnit hknown₀ hg, ih (h.step hl hfs (hkeys g hg)) htodo']

end Provenance.Update
