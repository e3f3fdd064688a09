/-
What a rebuild does to a disk without links.

On such a disk each artifact is at the location that its key spells, its site, so that
outputs get into each other's way only where one site is on the way to another. If
none is, a rebuild creates exactly the artifacts whose sites were free before it, and
moves exactly the times of those that it touches. `Built` is what holds after each of
its outputs; the sweep afterwards takes things away, and what remains remains as it
is.
-/
import Provenance.Proofs.Disk.Plain
import Provenance.Proofs.Update.Clearing
import Provenance.Proofs.Update.Table

set_option autoImplicit false

namespace Provenance.Update

open Action Host Cycle

variable {l : Layout} {c c' : Cycle} {a : ArtifactFile} {o : Output} {build done : Build}
  {before t t' : Tree} {key k k' : Text} {p : Path} {ledger : Ledger} {affected : List Text} {u : Unit}

/-! ## Sites -/

/-- The location that the names of a key lead to from the project root. -/
def Layout.site (l : Layout) (key : Text) : Location := l.projectRoot.names ++ Path.namesIn key

theorem Layout.site_of_key (hp : p.Below l.projectRoot) (hkey : p.key l.projectRoot = .ok key) :
    l.site key = p.names := by
  obtain ⟨names, hne, hn, rfl⟩ := hp
  rw [Path.key_descend l.projectRoot hne fun n hmem => (hn n hmem).1] at hkey
  rw [site, ← Except.ok.inj hkey, Path.namesIn_join fun n hmem => (hn n hmem).1]
  rfl

/-- An output with a key has an artifact with it, below the output directory. -/
theorem Layout.below_of_keyOf? (h : l.keyOf? o = some key) :
    ∃ p : Path, p.Below l.outputRoot ∧ p.key l.projectRoot = .ok key := by
  obtain ⟨p, hlocate, hkey⟩ := keyOf?_eq_some_iff.mp h
  exact ⟨p, Artifact.locate_below hlocate, hkey⟩

/-- Different keys of a build have different sites. -/
theorem Layout.Sound.site_injective (hl : l.Sound) (hk : k ∈ l.keysIn build)
    (hk' : k' ∈ l.keysIn build) (h : l.site k = l.site k') : k = k' := by
  obtain ⟨o, -, ho⟩ := Layout.mem_keysIn.mp hk
  obtain ⟨o', -, ho'⟩ := Layout.mem_keysIn.mp hk'
  obtain ⟨p, hp, hkey⟩ := Layout.below_of_keyOf? ho
  obtain ⟨p', hp', hkey'⟩ := Layout.below_of_keyOf? ho'
  have hnames : p.names = p'.names := by
    rw [← Layout.site_of_key (hp.trans hl.output) hkey, h,
      Layout.site_of_key (hp'.trans hl.output) hkey']
  have hpp' : p = p' := by
    obtain ⟨anchor, names⟩ := p
    obtain ⟨anchor', names'⟩ := p'
    obtain rfl : anchor = .root := (hl.straight hp).root
    obtain rfl : anchor' = .root := (hl.straight hp').root
    rw [show names = names' from hnames]
  rw [hpp', hkey'] at hkey
  exact (Except.ok.inj hkey).symm

/-- No site of an output of a build is on the way to that of another one. -/
def Layout.Apart (l : Layout) (build : Build) : Prop :=
  ∀ k ∈ l.keysIn build, ∀ k' ∈ l.keysIn build, l.site k <+: l.site k' → l.site k = l.site k'

/-! ## Outputs one by one -/

/-- On a disk without links an artifact is created exactly if its location is free. -/
theorem materialize_plain (hl : l.Sound) (ha : a.location.Below l.outputRoot)
    (hd : c.host.disk.Legal) (hfree : c.host.disk.tree.LinkFree) {created : Bool}
    (hr : (Cycle.materialize a).runOn c = (.ok created, c')) :
    Disk.Widened a.location.names c.host.disk c'.host.disk
      ∧ (c'.host.disk.tree.find? a.location.names).isSome
      ∧ (created = true ↔ c.host.disk.tree.find? a.location.names = none) := by
  obtain ⟨dirs, h₁, h₂, hmake, hcreate, rfl⟩ := materialize_steps hr
  obtain ⟨n, -, hpar, heq⟩ := ha.cases (hl.output.straight hl.root)
  have hnames : a.location.names = a.location.parent.names ++ [n] := congrArg Path.names heq
  have hmade := (Store.widens_createDirectories hpar).of_run hmake
  have hwide := hmade hd hfree
  obtain ⟨hwide', hthere, hcreated⟩ :=
    Store.createIfAbsent_plain hwide.legal hwide.free (hl.straight ha) hcreate
  have hprefix : a.location.parent.names <+: a.location.names := by
    rw [hnames]
    exact List.prefix_append _ _
  have hnot : ¬ a.location.names <+: a.location.parent.names := by
    intro hle
    have hlen := hle.length_le
    rw [hnames, List.length_append, List.length_singleton] at hlen
    omega
  refine ⟨(hwide.mono hprefix).trans hwide', hthere, ?_⟩
  rw [hcreated, hwide.find?_eq_none_iff hnot]

/-- What the outputs before some point of a build have come to on a disk without links. -/
structure Built (l : Layout) (before : Tree) (done : Build) (c : Cycle) : Prop where
  legal : c.host.disk.Legal
  free : c.host.disk.tree.LinkFree
  keeps : before.Keeps c.host.disk.tree
  only : ∀ x, before.find? x = none → (c.host.disk.tree.find? x).isSome →
    ∃ key ∈ l.keysIn done, x <+: l.site key
  there : ∀ key ∈ l.keysIn done, (c.host.disk.tree.find? (l.site key)).isSome
  created : c.pending.created.map Prod.fst
    = distinct ((l.keysIn done).filter fun key => (before.find? (l.site key)).isNone)
  times : ∀ x content time, before.find? x = some (.file content time) →
    ∃ time', c.host.disk.tree.find? x = some (.file content time')
      ∧ ((∃ key ∈ c.pending.touched, l.site key = x) → time < time')
      ∧ ((∀ key ∈ c.pending.touched, l.site key ≠ x) → time' = time)

/-- A site is free exactly if it was free before and belongs to no output brought in so far. -/
theorem Built.find?_eq_none_iff (hl : l.Sound) (hb : Built l before done c)
    (hapart : l.Apart (done ++ [o])) (hkey : l.keyOf? o = some key) :
    c.host.disk.tree.find? (l.site key) = none
      ↔ before.find? (l.site key) = none ∧ key ∉ l.keysIn done := by
  constructor
  · intro hnone
    refine ⟨?_, fun hmem => ?_⟩
    · rcases hf : before.find? (l.site key) with _ | e
      · rfl
      · have hkept := hb.keeps _ _ (Tree.shape_of_find? hf)
        rw [Tree.shape_eq_none_iff.mpr hnone] at hkept
        simp at hkept
    · have hthere := hb.there key hmem
      rw [hnone] at hthere
      simp at hthere
  · rintro ⟨hnone, hnew⟩
    by_contra hsome
    obtain ⟨key', hmem, hprefix⟩ := hb.only _ hnone (Option.isSome_iff_ne_none.mpr hsome)
    have hkeys : l.keysIn (done ++ [o]) = l.keysIn done ++ [key] := l.keysIn_concat done hkey
    have hown : key ∈ l.keysIn (done ++ [o]) := by rw [hkeys]; simp
    have hother : key' ∈ l.keysIn (done ++ [o]) := by rw [hkeys]; simp [hmem]
    have hsites := hapart key hown key' hother hprefix
    rw [hl.site_injective hown hother hsites] at hnew
    exact hnew hmem

/-- The keys created so far, after one more output. -/
theorem created_concat (free : Text → Bool) {keys created : List Text}
    (h : created = distinct (keys.filter free)) (key : Text) :
    distinct ((keys ++ [key]).filter free)
      = if free key = true ∧ key ∉ keys then created.filter (· ≠ key) ++ [key] else created := by
  rw [List.filter_append, h]
  by_cases hfree : free key = true
  · rw [List.filter_cons_of_pos hfree, List.filter_nil, distinct_concat]
    by_cases hmem : key ∈ keys
    · have hin : key ∈ distinct (keys.filter free) :=
        mem_distinct.mpr (List.mem_filter.mpr ⟨hmem, hfree⟩)
      rw [if_pos hin, if_neg (by simp [hmem])]
    · have hout : key ∉ distinct (keys.filter free) := fun hin =>
        hmem (List.mem_filter.mp (mem_distinct.mp hin)).1
      have hall : (distinct (keys.filter free)).filter (· ≠ key) = distinct (keys.filter free) := by
        apply List.filter_eq_self.mpr
        intro k hk
        exact decide_eq_true fun heq => hout (heq ▸ hk)
      rw [if_neg hout, if_pos ⟨hfree, hmem⟩, hall]
  · rw [List.filter_cons_of_neg hfree, List.filter_nil, List.append_nil]
    rw [if_neg fun hboth => hfree hboth.1]

theorem Built.materialize (hl : l.Sound) (hb : Built l before done c)
    (hapart : l.Apart (done ++ [o])) (hlocate : Artifact.locate l.outputRoot o.path = .ok a.location)
    (hkey : a.location.key l.projectRoot = .ok a.key) {created : Bool}
    (hr : (Cycle.materialize a).runOn c = (.ok created, c')) : Built l before (done ++ [o]) c' := by
  have ha := Artifact.locate_below hlocate
  have hok := Layout.keyOf?_eq_some_iff.mpr ⟨_, hlocate, hkey⟩
  have hsite : l.site a.key = a.location.names := Layout.site_of_key (ha.trans hl.output) hkey
  obtain ⟨hwide, hthere, hcreated⟩ := materialize_plain hl ha hb.legal hb.free hr
  have hkeys : l.keysIn (done ++ [o]) = l.keysIn done ++ [a.key] := l.keysIn_concat done hok
  obtain ⟨-, -, htouched, hnoted⟩ := noted_materialize hr
  have hkeysNoted : c'.pending.created.map Prod.fst
      = if created then (c.pending.created.map Prod.fst).filter (· ≠ a.key) ++ [a.key]
        else c.pending.created.map Prod.fst := by
    rw [hnoted]
    cases created
    · rfl
    · simp [List.filter_map, Function.comp_def]
  rw [← hsite] at hwide hthere hcreated
  rw [hb.find?_eq_none_iff hl hapart hok] at hcreated
  refine ⟨hwide.legal, hwide.free, hb.keeps.trans hwide.keeps, fun x hx hs => ?_, fun k hk => ?_, ?_,
    fun x content time hx => ?_⟩
  · rw [hkeys]
    by_cases hmid : c.host.disk.tree.find? x = none
    · exact ⟨a.key, by simp, hwide.only x hmid hs⟩
    · obtain ⟨k, hk, hprefix⟩ := hb.only x hx (Option.isSome_iff_ne_none.mpr hmid)
      exact ⟨k, List.mem_append_left _ hk, hprefix⟩
  · rw [hkeys] at hk
    rcases List.mem_append.mp hk with hk | hk
    · obtain ⟨e, he⟩ := Option.isSome_iff_exists.mp (hb.there k hk)
      have hkept := hwide.keeps _ _ (Tree.shape_of_find? he)
      exact Tree.isSome_iff_shape.mpr (by rw [hkept]; simp)
    · rw [List.mem_singleton.mp hk]
      exact hthere
  · have hfree : (before.find? (l.site a.key)).isNone = true
        ↔ before.find? (l.site a.key) = none := Option.isNone_iff_eq_none
    rw [hkeys, created_concat _ hb.created, hkeysNoted]
    simp only [hfree, hcreated]
  · obtain ⟨time', hfind, htimes⟩ := hb.times x content time hx
    rw [htouched]
    exact ⟨time', hwide.same x _ rfl hfind, htimes⟩

theorem Built.touch (hl : l.Sound) (hb : Built l before done c)
    (ha : a.location.Below l.outputRoot) (hkey : a.location.key l.projectRoot = .ok a.key)
    (hr : (Cycle.touch a).runOn c = (.ok u, c')) : Built l before done c' := by
  have hsite : l.site a.key = a.location.names := Layout.site_of_key (ha.trans hl.output) hkey
  obtain ⟨-, -, -, htouched⟩ := noted_touch hr
  obtain ⟨h₁, htouch, rfl⟩ := touch_steps hr
  obtain ⟨e, time₁, he, hlater, hdisk⟩ := Store.touch_plain hb.free (hl.straight ha) htouch
  have hshape : ∀ x, h₁.disk.tree.shape x = c.host.disk.tree.shape x := by
    intro x
    rw [hdisk, Disk.tree_withTree, Tree.shape_stamp]
  have hsome : ∀ x, (h₁.disk.tree.find? x).isSome ↔ (c.host.disk.tree.find? x).isSome := by
    intro x
    rw [Tree.isSome_iff_shape, hshape, ← Tree.isSome_iff_shape]
  refine ⟨?_, ?_, ?_, fun x hx hs => hb.only x hx ((hsome x).mp hs), fun k hk =>
    (hsome _).mpr (hb.there k hk), hb.created, fun x content time hx => ?_⟩
  · show h₁.disk.Legal
    rw [hdisk]
    exact hb.legal.withTree (hb.legal.tree.stamp _ _)
  · exact hb.free.of_shape fun x e' hx _ => by rw [← hshape]; exact hx
  · exact hb.keeps.trans (Tree.keeps_of_shape_eq hshape)
  · obtain ⟨time', hfind, hmoved, hkept⟩ := hb.times x content time hx
    have hstamp := Tree.find?_stamp c.host.disk.tree a.location.names time₁ x
    show ∃ time', h₁.disk.tree.find? x = some (.file content time') ∧ _
    rw [hdisk, Disk.tree_withTree, hstamp]
    simp only [htouched]
    by_cases hown : x = a.location.names
    · -- the artifact itself, whose time can only have moved forward before
      rw [hown] at hfind
      obtain rfl : e = .file content time' := Option.some.inj (he.symm.trans hfind)
      have hle : time ≤ time' := by
        by_cases hmem : ∃ key ∈ c.pending.touched, l.site key = x
        · exact Int.le_of_lt (hmoved hmem)
        · exact Int.le_of_eq (hkept fun key hk heq => hmem ⟨key, hk, heq⟩).symm
      refine ⟨time₁, by rw [if_pos hown, hown, hfind]; rfl, fun _ => Int.lt_of_le_of_lt hle hlater, ?_⟩
      intro hnot
      exact absurd (hsite.trans hown.symm) (hnot a.key (.inr rfl))
    · have hother : ∀ k, l.site k = x → k ≠ a.key := by
        rintro k hk rfl
        exact hown (hk.symm.trans hsite)
      refine ⟨time', by rw [if_neg hown, hfind], ?_, fun hnot => hkept fun k hk => hnot k (.inl hk)⟩
      rintro ⟨k, hk, hx'⟩
      exact hmoved ⟨k, hk.resolve_right (hother k hx'), hx'⟩

theorem Built.rebuildOutput (hl : l.Sound) (hb : Built l before done c)
    (hapart : l.Apart (done ++ [o]))
    (hr : (rebuildOutput l ledger affected o).runOn c = (.ok u, c')) :
    Built l before (done ++ [o]) c' := by
  obtain ⟨a, created, c₁, b, c₂, hlocate, hkey, hm, -, ht, hrecord⟩ := rebuildOutput_steps hr
  have hb₁ := hb.materialize hl hapart hlocate hkey hm
  have hb₂ : Built l before (done ++ [o]) c₂ := by
    cases b with
    | false =>
      obtain rfl : c₁ = c₂ := (Prod.mk.inj ht).2
      exact hb₁
    | true => exact hb₁.touch hl (Artifact.locate_below hlocate) hkey ht
  obtain rfl : _ = c' := (Prod.mk.inj hrecord).2
  exact ⟨hb₂.legal, hb₂.free, hb₂.keeps, hb₂.only, hb₂.there, hb₂.created, hb₂.times⟩

/-- What a whole build comes to on a disk without links. -/
theorem built_rebuildSteps (hl : l.Sound) (hd : c.host.disk.Legal)
    (hfree : c.host.disk.tree.LinkFree) (hpending : c.pending = .none) (hapart : l.Apart build)
    (hr : (rebuildSteps l ledger affected build).runOn c = (.ok u, c')) :
    Built l c.host.disk.tree build c' := by
  have hstart : Built l c.host.disk.tree [] c := by
    refine ⟨hd, hfree, .refl _, fun x hx hs => ?_, by simp [Layout.keysIn], ?_,
      fun x content time hx => ⟨time, hx, ?_, fun _ => rfl⟩⟩
    · rw [hx] at hs
      simp at hs
    · rw [hpending]
      rfl
    · rw [hpending]
      simp [Pending.none]
  refine forM_ok_along hstart (fun done o rest hbuild c₁ c₂ hb hr => ?_) hr
  refine hb.rebuildOutput hl (fun k hk k' hk' => ?_) hr
  -- the outputs so far are outputs of the build
  have hsub : ∀ key ∈ l.keysIn (done ++ [o]), key ∈ l.keysIn build := by
    intro key hmem
    obtain ⟨o', ho', hkey⟩ := Layout.mem_keysIn.mp hmem
    refine Layout.mem_keysIn.mpr ⟨o', ?_, hkey⟩
    rw [hbuild]
    rcases List.mem_append.mp ho' with h | h
    · exact List.mem_append_left _ h
    · rw [List.mem_singleton.mp h]
      simp
  exact hapart k (hsub k hk) k' (hsub k' hk')

/-! ## What remains after a sweep -/

/-- What a tree holds another one holds too, and as it is unless it is a directory. -/
def Remains (t t' : Tree) : Prop :=
  ∀ x e', t'.find? x = some e' →
    ∃ e, t.find? x = some e ∧ e.timeless = e'.timeless ∧ (e.isDirectory = false → e = e')

/-- A legal disk of which some things remain. -/
def LeavesBe (d d' : Disk) : Prop := d.Legal → d'.Legal ∧ Remains d.tree d'.tree

theorem stepwise_leavesBe : Stepwise (Across LeavesBe) := by
  refine stepwise_across (fun d hd => ⟨hd, fun x e hx => ⟨e, hx, rfl, fun _ => rfl⟩⟩) ?_
  intro d d' d'' h h' hd
  obtain ⟨hd', hr⟩ := h hd
  obtain ⟨hd'', hr'⟩ := h' hd'
  refine ⟨hd'', fun x e'' hx => ?_⟩
  obtain ⟨e', hx', htimeless', hsame'⟩ := hr' x e'' hx
  obtain ⟨e, hx₀, htimeless, hsame⟩ := hr x e' hx'
  refine ⟨e, hx₀, htimeless.trans htimeless', fun hdir => ?_⟩
  have heq := hsame hdir
  rw [heq] at hdir
  rw [heq, hsame' hdir]

theorem remains_remove (ht : t.Legal) {x : Location} (hx : (t.find? x).isSome) (now : Int) :
    Remains t (t.remove x now) := by
  intro y e' hy
  have hkeeps := keeps_remove t x now y _ (Tree.shape_of_find? hy)
  obtain ⟨e, hfind, htimeless⟩ := Option.map_eq_some_iff.mp hkeeps
  refine ⟨e, hfind, htimeless, fun hdir => ?_⟩
  rcases List.eq_nil_or_concat x with rfl | ⟨dir, n, hcons⟩
  · have hstamp := Tree.find?_stamp t [] now y
    have hroot : y ≠ [] := by
      rintro rfl
      have hisdir := ht.isDirectory_nil
      rw [Tree.isDirectory, hfind, Option.any_some, hdir] at hisdir
      exact Bool.noConfusion hisdir
    rw [if_neg hroot, hfind] at hstamp
    exact Option.some.inj (hstamp.symm.trans hy)
  · rw [List.concat_eq_append] at hcons
    subst hcons
    rw [Tree.find?_remove] at hy
    split at hy
    · simp at hy
    have hparent : y ≠ dir := by
      rintro rfl
      have hisdir := ht.isDirectory_of_below (m := [n]) (by simp) hx
      rw [Tree.isDirectory, hfind, Option.any_some, hdir] at hisdir
      exact Bool.noConfusion hisdir
    rw [if_neg hparent, hfind] at hy
    exact Option.some.inj hy

theorem leavesBe_sweep (hs : l.Sound) (entries : Entries) :
    Respects (Across LeavesBe) (sweep l entries) := by
  have hR := stepwise_leavesBe
  have habs := (hs.output.straight hs.root).isAbsolute
  refine respects_sweep hR l entries (fun p => ?_) fun names => ?_
  · apply respects_bind hR (respects_meetFault hR _ _)
    intro _
    apply respects_call hR
    intro d now d' hc hd
    obtain ⟨x, e, hpl, hdir, rfl⟩ := Disk.unlink_ok hc
    have hfind := Disk.place_present_of_not_directory hpl hdir
    exact ⟨hd.unlink hc, remains_remove hd.tree (by rw [hfind]; rfl) now⟩
  · apply respects_bind hR (respects_meetFault hR _ _)
    intro _
    apply respects_call hR
    intro d now d' hc hd
    obtain ⟨x, time, hpl, -, -, rfl⟩ := Disk.removeDirectory_ok hc
    have hfind := Disk.place_present (p := l.outputRoot.descend names) habs hpl
    exact ⟨hd.removeDirectory hc, remains_remove hd.tree (by rw [hfind]; rfl) now⟩

/-! ## Both together -/

/-- What a rebuild means. It records for each key the sources of all outputs that have it; it has
created the artifacts of those keys whose sites were free, and touched those of which some source is
affected, named by the build or by the ledger before; and of the files that are still there it has
moved the times of those that it touched, and of no others. -/
structure Rebuilt (l : Layout) (ledger : Ledger) (s : SourceSet) (affected : List Text)
    (build : Build) (before after : Tree) (entries : Entries) (created touched : List Text) :
    Prop where
  keys : entries.keys = distinct (l.keysIn build)
  sources : ∀ key, entries.sourcesOf key = l.sourcesIn build key
  created_eq : created
    = distinct ((l.keysIn build).filter fun key => (before.find? (l.site key)).isNone)
  mem_touched : ∀ key, key ∈ touched ↔ key ∈ l.keysIn build
    ∧ ∃ p, (p ∈ l.sourcesIn build key ∨ p ∈ ledger.sourcesOf key) ∧ s.Among affected p
  later : ∀ key ∈ touched, ∀ content time, before.find? (l.site key) = some (.file content time) →
    ∀ e, after.find? (l.site key) = some e → ∃ time', e = .file content time' ∧ time < time'
  same : ∀ x content time, (∀ key ∈ touched, l.site key ≠ x) →
    before.find? x = some (.file content time) →
    ∀ e, after.find? x = some e → e = .file content time

theorem rebuilt_of_steps (hl : l.Sound) (hd : c.host.disk.Legal)
    (hfree : c.host.disk.tree.LinkFree) (hpending : c.pending = .none) (hapart : l.Apart build)
    (hr : (rebuildSteps l ledger affected build).runOn c = (.ok u, c')) {after : Tree}
    (hremains : Remains c'.host.disk.tree after) :
    Rebuilt l ledger c.sources affected build c.host.disk.tree after c'.pending.entries
      (c'.pending.created.map Prod.fst) c'.pending.touched := by
  have hnoted := noted_rebuildSteps hpending hr
  have hbuilt := built_rebuildSteps hl hd hfree hpending hapart hr
  -- a file that is still there is as the steps left it
  have hleft : ∀ x content time', c'.host.disk.tree.find? x = some (.file content time') →
      ∀ e, after.find? x = some e → e = .file content time' := by
    intro x content time' hx e he
    obtain ⟨e₁, hx', -, hsame⟩ := hremains x e he
    obtain rfl : .file content time' = e₁ := Option.some.inj (hx.symm.trans hx')
    exact (hsame rfl).symm
  refine ⟨?_, fun key => ?_, hbuilt.created, hnoted.mem_touched_iff, ?_, ?_⟩
  · rw [hnoted.entries, l.keys_tableOf]
  · rw [hnoted.entries, l.sourcesOf_tableOf]
  · intro key hkey content time hx e he
    obtain ⟨time', hfind, hmoved, -⟩ := hbuilt.times _ content time hx
    exact ⟨time', hleft _ content time' hfind e he, hmoved ⟨key, hkey, rfl⟩⟩
  · intro x content time hnot hx e he
    obtain ⟨time', hfind, -, hkept⟩ := hbuilt.times x content time hx
    rw [hleft x content time' hfind e he, hkept hnot]

end Provenance.Update
