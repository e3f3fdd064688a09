/-
What is there for each artifact that is recorded.

An update makes sure of an artifact before it records it, and until it publishes it
takes nothing away. So when it comes to publish, something is at the path of each
artifact recorded, though it need not be a file: a path that leads to anything at all
is left as it is.
-/
import Provenance.Proofs.Disk.Listing
import Provenance.Proofs.Update.Record

set_option autoImplicit false

namespace Provenance

namespace Entries

/-- A key that is new comes last. -/
theorem keys_record (entries : Entries) (key : Text) (sources : List Path) :
    (entries.record key sources).keys
      = if key ∈ entries.keys then entries.keys else entries.keys ++ [key] := by
  induction entries with
  | nil => rfl
  | cons e entries ih =>
    obtain ⟨k, old⟩ := e
    unfold record
    by_cases hk : k = key
    · simp [keys, hk]
    · have hkeys : keys ((k, old) :: record key sources entries)
          = k :: keys (record key sources entries) := rfl
      rw [if_neg hk, hkeys, ih]
      by_cases hmem : key ∈ keys entries
      · have hmem' : key ∈ keys ((k, old) :: entries) := List.mem_cons_of_mem _ hmem
        rw [if_pos hmem, if_pos hmem']
        rfl
      · have hmem' : key ∉ keys ((k, old) :: entries) := fun h =>
          (List.mem_cons.mp h).elim (fun heq => hk heq.symm) hmem
        rw [if_neg hmem, if_neg hmem']
        rfl

/-- The keys after sources have been recorded. -/
theorem mem_keys_record {entries : Entries} {key k : Text} {sources : List Path} :
    k ∈ (entries.record key sources).keys ↔ k = key ∨ k ∈ entries.keys := by
  rw [keys_record]
  split
  · rename_i hmem
    exact ⟨.inr, fun h => h.elim (fun heq => heq ▸ hmem) id⟩
  · simp [or_comm]

/-- Sources are recorded for their key after those that it had. -/
theorem sourcesOf_record (entries : Entries) (key : Text) (sources : List Path) (k : Text) :
    (entries.record key sources).sourcesOf k
      = if k = key then entries.sourcesOf key ++ sources else entries.sourcesOf k := by
  induction entries with
  | nil => simp [record, sourcesOf, eq_comm]
  | cons e entries ih =>
    obtain ⟨k', old⟩ := e
    unfold record
    by_cases hk' : k' = key
    · subst hk'
      by_cases hk : k = k'
      · simp [sourcesOf, hk]
      · simp [sourcesOf, hk, Ne.symm hk]
    · by_cases hk : k = k'
      · subst hk
        simp [sourcesOf, hk']
      · simp [sourcesOf, hk', Ne.symm hk, ih]

/-- A key with a source is recorded. -/
theorem mem_keys_of_sourcesOf {entries : Entries} {key : Text} (h : entries.sourcesOf key ≠ []) :
    key ∈ entries.keys := by
  induction entries with
  | nil => simp [sourcesOf] at h
  | cons e entries ih =>
    obtain ⟨k, sources⟩ := e
    unfold sourcesOf at h
    split at h
    · rename_i heq
      simp [keys, heq]
    · exact List.mem_cons_of_mem _ (ih h)

end Entries

namespace Update

open Action Host Cycle

variable {l : Layout} {c c' : Cycle} {d d' : Disk} {key : Text} {p : Path}

/-! ## Growing disks -/

/-- A legal disk stays legal and keeps all that it holds, times aside. -/
def Grows (d d' : Disk) : Prop := d.Legal → d'.Legal ∧ d.tree.Keeps d'.tree

theorem stepwise_grows : Stepwise (Across Grows) :=
  stepwise_across (fun _ hd => ⟨hd, .refl _⟩) fun h h' hd =>
    let ⟨hd', hk⟩ := h hd
    let ⟨hd'', hk'⟩ := h' hd'
    ⟨hd'', hk.trans hk'⟩

theorem grows_add (hp : p.Straight) {dir : Location} {n : Text}
    (hpl : d.place false p = .ok (.absent dir n)) (e : Entry) (he : e.isLink = false) (now : Int) :
    Grows d (d.withTree (d.tree.add (dir ++ [n]) e now)) := fun hd =>
  let ⟨hdir, hfree, _⟩ := Disk.place_absent hd.tree hp hpl
  ⟨hd.add hp hpl he, Tree.keeps_add (Tree.isSome_find?_of_isDirectory hdir) hfree e now⟩

/-- The calls of the store on artifacts take nothing away. -/
theorem Layout.Sound.keptGrows (hl : l.Sound) : Kept (Across Grows) l where
  stepwise := stepwise_grows
  createDirectories _ hp := Store.respects_createDirectories stepwise_grows (hl.straight hp).parent
    fun x hx _ d now d' hc => by
      obtain ⟨dir, n, hpl, rfl⟩ := Disk.makeDirectory_ok hc
      exact grows_add hx hpl _ rfl now
  createIfAbsent p hp := Store.respects_createIfAbsent stepwise_grows fun d now d' hc => by
    obtain ⟨dir, n, hpl, rfl⟩ := Disk.createFile_ok hc
    exact grows_add (hl.straight hp) hpl _ rfl now
  touch _ _ := Store.respects_touch stepwise_grows fun d time d' hc hd => by
    obtain ⟨x, e, -, rfl⟩ := Disk.setTime_ok hc
    exact ⟨hd.withTree (hd.tree.stamp x time), Tree.keeps_of_shape_eq (Tree.shape_stamp _ _ _)⟩

/-! ## Occupied paths -/

/-- Something is at a path below the output directory that has the key. -/
def Layout.Occupied (l : Layout) (d : Disk) (key : Text) : Prop :=
  ∃ p x e, p.Below l.outputRoot ∧ p.key l.projectRoot = .ok key
    ∧ d.place false p = .ok (.present x e)

/-- What is occupied stays so as long as nothing is taken away. -/
theorem Layout.Occupied.grows (hl : l.Sound) (hd : d.Legal) (h : l.Occupied d key)
    (hg : Grows d d') : l.Occupied d' key := by
  obtain ⟨p, x, e, hp, hkey, hpl⟩ := h
  obtain ⟨hd', hk⟩ := hg hd
  obtain ⟨n, hn, hpar, heq⟩ := hp.cases (hl.output.straight hl.root)
  rw [heq] at hpl
  obtain ⟨e', hpl'⟩ := Disk.place_child_of_keeps hd.tree hd'.tree hpar.isAbsolute hn.2 hpl hk
  exact ⟨p, x, e', hp, hkey, by rw [heq]; exact hpl'⟩

/-- Something is at the path of a file that has been created, or was there before. -/
theorem place_createIfAbsent {h h' : Host} (hl : l.Sound) (hd : h.disk.Legal)
    (hp : p.Below l.outputRoot) {created : Bool}
    (hr : (Store.createIfAbsent p).runOn h = (.ok created, h')) :
    ∃ x e, h'.disk.place false p = .ok (.present x e) := by
  have hstraight := hl.straight hp
  rcases Store.createIfAbsent_ok hr with ⟨-, hc⟩ | ⟨-, hc, hsame⟩
  · obtain ⟨dir, n, hpl, hd'⟩ := Disk.createFile_ok hc
    obtain ⟨hlegal, hk⟩ := grows_add hstraight hpl (.file [] h.clock.now) rfl h.clock.now hd
    obtain ⟨m, hm, hpar, heq⟩ := hp.cases (hl.output.straight hl.root)
    have hpl' := hpl
    rw [heq] at hpl'
    obtain ⟨-, -, -, hdir, -, rfl⟩ :=
      (Disk.place_child_absent_iff hd.tree hpar.isAbsolute hm.2).mp hpl'
    have hfind := Tree.find?_add (t := h.disk.tree) (Tree.isSome_find?_of_isDirectory hdir) n
      (.file [] h.clock.now) h.clock.now (dir ++ [n])
    rw [if_pos rfl] at hfind
    have hleads := Disk.leadsTo_of_absent hd.tree hpar.isAbsolute hm.2 hpl' hlegal.tree hk.passable
    rw [← heq] at hleads
    rw [hd']
    exact ⟨_, _, hleads _ rfl _ hfind⟩
  · rw [hsame]
    exact Disk.createFile_alreadyThere hstraight.isAbsolute hc

/-! ## Updates -/

/-- Something is at the path of each artifact that is recorded. -/
def Provided (l : Layout) (c : Cycle) : Prop :=
  c.host.disk.Legal ∧ ∀ key ∈ c.pending.entries.keys, l.Occupied c.host.disk key

section

variable (hl : l.Sound) {a : ArtifactFile}
include hl

/-- Nothing that grows the disk and records nothing does harm. -/
theorem Provided.grows (hc : Provided l c) (hg : OnHosts (Across Grows) c c')
    (he : c'.pending.entries = c.pending.entries) : Provided l c' := by
  refine ⟨(hg hc.1).1, fun key hkey => ?_⟩
  rw [he] at hkey
  exact (hc.2 key hkey).grows hl hc.1 hg

omit hl in
/-- An artifact that has been made sure of may be recorded. -/
theorem Provided.record (hc : Provided l c) (ha : l.Occupied c.host.disk a.key)
    {sources : List Path} {u : Unit} (hr : (Cycle.record a sources).runOn c = (.ok u, c')) :
    Provided l c' := by
  obtain rfl : _ = c' := (Prod.mk.inj hr).2
  refine ⟨hc.1, fun key hkey => ?_⟩
  rcases Entries.mem_keys_record.mp hkey with rfl | hkey
  · exact ha
  · exact hc.2 key hkey

theorem provided_materialize (hc : Provided l c) (ha : a.location.Below l.outputRoot)
    (hkey : a.location.key l.projectRoot = .ok a.key) {created : Bool}
    (hr : (materialize a).runOn c = (.ok created, c')) :
    Provided l c' ∧ l.Occupied c'.host.disk a.key := by
  have hg := hl.keptGrows.steps.materialize a ha c
  have hsame := samePlan_materialize a c
  rw [hr] at hg hsame
  refine ⟨hc.grows hl hg hsame.2, ?_⟩
  obtain ⟨dirs, h₁, h₂, hmake, hcreate, rfl⟩ := materialize_steps hr
  have hg₁ := (hl.keptGrows.createDirectories _ ha).of_run hmake
  obtain ⟨x, e, hpl⟩ := place_createIfAbsent hl (hg₁ hc.1).1 ha hcreate
  exact ⟨a.location, x, e, ha, hkey, hpl⟩

/-- Touching an artifact does no harm to any. -/
theorem provided_touch (hc : Provided l c) (ha : a.location.Below l.outputRoot)
    (hthere : l.Occupied c.host.disk a.key) {u : Unit}
    (hr : (Cycle.touch a).runOn c = (.ok u, c')) :
    Provided l c' ∧ l.Occupied c'.host.disk a.key := by
  have hg := hl.keptGrows.steps.touch a ha c
  have hsame := samePlan_touch a c
  rw [hr] at hg hsame
  exact ⟨hc.grows hl hg hsame.2, hthere.grows hl hc.1 hg⟩

theorem provided_rebuildOutput {ledger : Ledger} {affected : List Text} {o : Output} {u : Unit}
    (hc : Provided l c) (hr : (rebuildOutput l ledger affected o).runOn c = (.ok u, c')) :
    Provided l c' := by
  obtain ⟨a, created, c₁, b, c₂, hlocate, hkey, hm, -, ht, hrecord⟩ := rebuildOutput_steps hr
  have hbelow := Artifact.locate_below hlocate
  obtain ⟨hc₁, hthere⟩ := provided_materialize hl hc hbelow hkey hm
  cases b with
  | false =>
    obtain rfl : c₁ = c₂ := (Prod.mk.inj ht).2
    exact hc₁.record hthere hrecord
  | true =>
    obtain ⟨hc₂, hthere'⟩ := provided_touch hl hc₁ hbelow hthere ht
    exact hc₂.record hthere' hrecord

/-- A rebuild that gets through has something at the path of each artifact recorded. -/
theorem provided_rebuildSteps {ledger : Ledger} {affected : List Text} {build : Build} {u : Unit}
    (hc : Provided l c) (hr : (rebuildSteps l ledger affected build).runOn c = (.ok u, c')) :
    Provided l c' :=
  forM_ok hc (fun _ _ _ _ _ hs hr => provided_rebuildOutput hl hs hr) hr

theorem provided_editArtifact {f : TrackedFile} (hc : Provided l c) (hp : p.Below l.outputRoot)
    {u : Unit} (hr : (editArtifact l f p).runOn c = (.ok u, c')) : Provided l c' := by
  obtain ⟨a, created, c₁, c₂, rfl, hkey, hm, ht, hrecord⟩ := editArtifact_steps hr
  obtain ⟨hc₁, hthere⟩ := provided_materialize hl hc hp hkey hm
  cases created with
  | true =>
    obtain rfl : c₁ = c₂ := (Prod.mk.inj ht).2
    exact hc₁.record hthere hrecord
  | false =>
    obtain ⟨hc₂, hthere'⟩ := provided_touch hl hc₁ hp hthere ht
    exact hc₂.record hthere' hrecord

theorem provided_editSource {resolve : Resolver} {f : TrackedFile} {u : Unit} (hc : Provided l c)
    (hr : (editSource l resolve f).runOn c = (.ok u, c')) : Provided l c' := by
  obtain ⟨ps, c₁, hps, hrest⟩ := bind_ok_iff.mp hr
  have hg := (hl.keptGrows.steps.artifactLocations l resolve f).of_run hps
  refine forM_ok (hc.grows hl hg (entries_artifactLocations hps)) ?_ hrest
  exact fun p hp _ _ _ hs hr => provided_editArtifact hl hs (artifactLocations_below hps p hp) hr

/-- An edit that gets through has something at the path of each artifact recorded. -/
theorem provided_editSteps {resolve : Resolver} {affected : List Text} {u : Unit}
    (hc : Provided l c) (hr : (editSteps l resolve affected).runOn c = (.ok u, c')) :
    Provided l c' := by
  obtain ⟨files, c₁, hfiles, hrest⟩ := bind_ok_iff.mp hr
  have hc₁ : Provided l c₁ := by
    rw [runOn_onSources] at hfiles
    rw [← (Prod.mk.inj hfiles).2]
    exact hc
  exact forM_ok hc₁ (fun _ _ _ _ _ hs hr => provided_editSource hl hs hr) hrest

end

end Update

end Provenance
